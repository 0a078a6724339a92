import Codegen.Fault
import Codegen.Journal
import Codegen.ValueType
import Codegen.InstructionSet
import Codegen.Varint
import Codegen.LittleEndian
import Codegen.Text.Fields
import Codegen.Graph.Basic
import Codegen.Graph.Walk
import Codegen.Graph.Dot
import Codegen.Graph.Listing
import Codegen.Ir
import Codegen.Bytecode.Error
import Codegen.Bytecode.Cursor
import Codegen.Bytecode.Record
import Codegen.Bytecode.Machine
import Codegen.Bytecode.Container
import Codegen.Bytecode.Draft
import Codegen.Diagnostic
import Codegen.Pattern.Basic
import Codegen.Pattern.Text
import Codegen.Pattern.Match
import Codegen.TypeMap
import Codegen.Rule.Basic
import Codegen.Rule.Text
import Codegen.Rule.Table
import Codegen.Pass
import Codegen.Selection
import Codegen.Prepare
import Codegen.X86
import Codegen.CommandLine.Options
import Codegen.CommandLine.Session
import Codegen.Main
import Codegen.Proofs.Bytecode.Reads
import Codegen.Proofs.Bytecode.Record
import Codegen.Proofs.Bytecode.Assembly
import Codegen.Proofs.Bytecode.Decoding
import Codegen.Proofs.Bytecode.RoundTrip
import Codegen.Proofs.Bytecode.Meaning
import Codegen.Proofs.Pattern.Solutions
import Codegen.Proofs.Graph.Reach
import Codegen.Proofs.Pattern.Reach
import Codegen.Proofs.Rule.Table
import Codegen.Proofs.Rule.Shaping
import Codegen.Proofs.Prepare
import Codegen.Proofs.Selection
import Codegen.Proofs.X86.Forms
import Codegen.Proofs.X86.Meaning
import Codegen.Proofs.Bytecode.Truncation
import Codegen.Proofs.Bytecode.Reemission
import Codegen.Proofs.Graph.Walk
import Codegen.Proofs.Bytecode.Safety
import Codegen.Proofs.X86.Safety
import Codegen.Proofs.Selection.Pointwise
import Codegen.Proofs.Selection.Locality
import Codegen.Proofs.X86.Outcome
import Codegen.Proofs.Bytecode.Circles
import Codegen.Proofs.Pattern.Outline
import Codegen.Proofs.Rule.Scan
import Codegen.Proofs.Selection.Pointers
import Codegen.Proofs.X86.Shape
import Codegen.Proofs.Graph.Editing
import Codegen.Proofs.Graph.BreadthFirst
import Codegen.Proofs.Pattern.Recording
import Codegen.Proofs.Selection.Slots
import Codegen.Proofs.Bytecode.WellFormed
import Codegen.Proofs.Bytecode.Coverage
import Codegen.Proofs.Bytecode.Cost
import Codegen.Proofs.Varint.Words
import Codegen.Proofs.Varint.Outcome
import Codegen.Proofs.Varint.Canonical
import Codegen.Proofs.X86.OperandOrder
import Codegen.Proofs.Bytecode.Requests
import Codegen.Proofs.InstructionSet
import Codegen.Proofs.Graph.Listing
import Codegen.Proofs.Graph.Dump.Lines
import Codegen.Proofs.Graph.Dump.Reading
import Codegen.Proofs.Graph.Dump.Declared
import Codegen.Proofs.Pass
import Codegen.Proofs.Pattern.Buffer
