import EightBit.Assembly.Assembler
import EightBit.Assembly.Encode
import EightBit.Assembly.Error
import EightBit.Assembly.Layout
import EightBit.Assembly.Program
import EightBit.Cli.Build
import EightBit.Cli.Command
import EightBit.Cli.Disk
import EightBit.Cli.Flag
import EightBit.Cli.Language
import EightBit.Cli.Reading
import EightBit.Cli.Run
import EightBit.Cpu.Basic
import EightBit.Cpu.Register
import EightBit.Cpu.Stack
import EightBit.Cpu.Step
import EightBit.Disassembly
import EightBit.Emulator
import EightBit.Isa.Architecture
import EightBit.Isa.Mode
import EightBit.Isa.Table
import EightBit.Isa.Word
import EightBit.Listing
import EightBit.Main
import EightBit.Memory
import EightBit.Mos6502.Addressing
import EightBit.Mos6502.Architecture
import EightBit.Mos6502.Execution
import EightBit.Mos6502.Operation
import EightBit.Path
import EightBit.Pattern
import EightBit.Preprocess.Basic
import EightBit.Preprocess.Equate
import EightBit.Preprocess.Import
import EightBit.Preprocess.Macro
import EightBit.Preprocess.Run
import EightBit.Text.Basic
import EightBit.Text.LetterCase
import EightBit.Text.Number
import EightBit.Text.Printable
import EightBit.Text.Quoted
import EightBit.Text.Template
import EightBit.Text.Utf8
import EightBit.Token.Basic
import EightBit.Token.Dialect
import EightBit.Token.Expression
import EightBit.Token.Scan
import EightBit.Token.Value
import EightBit.Tree.Basic
import EightBit.Tree.Diagnostic
import EightBit.Tree.Label
import EightBit.Tree.Link
import EightBit.Tree.Node
import EightBit.Tree.Parse
import EightBit.Tree.Section
import EightBit.Tree.Statement
import EightBit.Proofs.Encoding
import EightBit.Proofs.Execution
import EightBit.Proofs.Inert
import EightBit.Proofs.Instruction
import EightBit.Proofs.Layout
import EightBit.Proofs.Memory
import EightBit.Proofs.Numeral
import EightBit.Proofs.Operand
import EightBit.Proofs.Overlay
import EightBit.Proofs.Packing
import EightBit.Proofs.Pattern
import EightBit.Proofs.Preprocess
import EightBit.Proofs.Registers
import EightBit.Proofs.RoundTrip
import EightBit.Proofs.Scan
import EightBit.Proofs.SourceTree
import EightBit.Proofs.Table
import EightBit.Proofs.Word
import EightBit.Proofs.Linking
import EightBit.Proofs.Encodable
import EightBit.Proofs.AddressSpace
import EightBit.Proofs.Transfer
import EightBit.Proofs.Debugging
import EightBit.Proofs.FullName
import EightBit.Proofs.Readback
import EightBit.Proofs.Scoping
import EightBit.Proofs.CleanPath
import EightBit.Proofs.Imports
import EightBit.Proofs.ImportSearch
import EightBit.Proofs.Grafting
import EightBit.Proofs.Loading
import EightBit.Proofs.MacroLabel
import EightBit.Proofs.Confinement
import EightBit.Proofs.Stopping
import EightBit.Proofs.Reassembly
import EightBit.Proofs.Completeness
import EightBit.Proofs.DataLine
import EightBit.Proofs.DataList
import EightBit.Proofs.Breakpoints
import EightBit.Proofs.BranchRange
import EightBit.Proofs.LabelAddress
import EightBit.Proofs.Renumbering
import EightBit.Proofs.Comments
import EightBit.Proofs.Constant
import EightBit.Proofs.Latching
import EightBit.Proofs.Arithmetic
import EightBit.Proofs.Expression
import EightBit.Proofs.Reduction
import EightBit.Proofs.LineEnd
import EightBit.Proofs.LinesAlike
import EightBit.Proofs.TrailingBlank
import EightBit.Proofs.TreeRenumbering
import EightBit.Proofs.CarriageReturn
import EightBit.Proofs.Linewise
import EightBit.Proofs.Locating
import EightBit.Proofs.LineLocal
import EightBit.Proofs.Rescanning
import EightBit.Proofs.Equates
import EightBit.Proofs.Hygiene
import EightBit.Proofs.Consistency
import EightBit.Proofs.Provenance
import EightBit.Proofs.Recognition
import EightBit.Proofs.OperandValue
import EightBit.Proofs.Machine
import EightBit.Proofs.Footprint
import EightBit.Proofs.CallReturn
import EightBit.Proofs.LastInFirstOut
import EightBit.Proofs.MultiByte
import EightBit.Proofs.Tiling
import EightBit.Proofs.Matching
import EightBit.Proofs.ErrorLimit
import EightBit.Proofs.MemoryWord
import EightBit.Proofs.ByteSize
import EightBit.Proofs.Failure
import EightBit.Proofs.Spelling
