import Lox.Text
import Lox.Token
import Lox.Lexer
import Lox.Number.Binary
import Lox.Number.Shortest
import Lox.Number.Format
import Lox.Number.Literal
import Lox.Fault
import Lox.Bytecode.Opcode
import Lox.Bytecode.Pool
import Lox.Bytecode.Chunk
import Lox.Bytecode.Address
import Lox.Bytecode.Instruction
import Lox.Bytecode.Listing
import Lox.Compiler.Precedence
import Lox.Compiler.Error
import Lox.Compiler.State
import Lox.Compiler.Emit
import Lox.Compiler.Expression
import Lox.Compiler.Statement
import Lox.Compiler.Program
import Lox.Heap.Object
import Lox.Heap.Basic
import Lox.Heap.Collect
import Lox.Machine.Error
import Lox.Machine.State
import Lox.Machine.Upvalue
import Lox.Machine.Call
import Lox.Machine.Step
import Lox.Machine.StackTrace
import Lox.Machine.Run
import Lox.Machine.Native
import Lox.Vm
import Lox.Document
import Lox.Diagnostic
import Lox.Cli.Options
import Lox.Cli.Session
import Lox.Main
import Lox.Proofs.Lexer
import Lox.Proofs.Syntax
import Lox.Proofs.Grammar
import Lox.Proofs.Bytecode.Pool
import Lox.Proofs.Bytecode.Listing
import Lox.Proofs.Compiler.Steps
import Lox.Proofs.Bytecode.Verification
import Lox.Proofs.Bytecode.Layout
import Lox.Proofs.Bytecode.Likeness
import Lox.Proofs.Compiler.Advance
import Lox.Proofs.Compiler.Progress
import Lox.Proofs.Compiler.Emission
import Lox.Proofs.Compiler.Growth
import Lox.Proofs.Compiler.Linking
import Lox.Proofs.Compiler.Verification
import Lox.Proofs.Compiler.Relocation
import Lox.Proofs.Compiler.Reading
import Lox.Proofs.Compiler.Reading.Expression
import Lox.Proofs.Compiler.Reading.Statement
import Lox.Proofs.Compiler.Acceptance
import Lox.Proofs.Compiler.Acceptance.Expression
import Lox.Proofs.Compiler.Acceptance.Statement
import Lox.Proofs.Heap.Lookup
import Lox.Proofs.Heap.Collection
import Lox.Proofs.Machine.Steps
import Lox.Proofs.Machine.Invariant
import Lox.Proofs.Machine.Safety
import Lox.Proofs.Machine.Effect
import Lox.Proofs.Machine.Captured
import Lox.Proofs.Machine.Footprint
import Lox.Proofs.Machine.Boundary
import Lox.Proofs.Machine.Globals
import Lox.Proofs.Machine.Naming
import Lox.Proofs.Heap.Renaming
import Lox.Proofs.Machine.Renaming
import Lox.Proofs.Machine.Concurrence
import Lox.Proofs.Machine.Agreement
import Lox.Proofs.Session
import Lox.Proofs.Calls
import Lox.Proofs.Closing
import Lox.Proofs.Semantics.Data
import Lox.Proofs.Heap.Exactness
import Lox.Proofs.Residue
import Lox.Proofs.Compiler.Tidiness
import Lox.Proofs.Compiler.Charts
import Lox.Proofs.Semantics.Variables
import Lox.Proofs.Semantics.Simulation
import Lox.Proofs.Semantics.Preservation
import Lox.Proofs.Semantics.Programs
import Lox.Proofs.Host
import Lox.Proofs.Interning
import Lox.Proofs.Machine.Lasting
import Lox.Proofs.Machine.Layering
import Lox.Proofs.Machine.Lockstep
import Lox.Proofs.Machine.Attachment
import Lox.Proofs.Frames
import Lox.Proofs.Machine.Untraced
import Lox.Proofs.Listing
import Lox.Proofs.Lines
import Lox.Proofs.Lexer.Extension
import Lox.Proofs.Compiler.Concatenation
import Lox.Proofs.Machine.Handover
import Lox.Proofs.Joining
import Lox.Proofs.Compiler.Prospect
import Lox.Proofs.Compiler.Mirroring
import Lox.Proofs.Compiler.Mirroring.Printing
import Lox.Proofs.Compiler.Mirroring.Statement
import Lox.Proofs.Compiler.Modes
import Lox.Proofs.Compiler.Keeping
import Lox.Proofs.Compiler.Stranding
import Lox.Proofs.Compiler.Parallel
import Lox.Proofs.Compiler.Parallel.Statement
import Lox.Proofs.Compiler.Completion
import Lox.Proofs.Compiler.Reuse
import Lox.Proofs.Compiler.Termination
import Lox.Proofs.Compiler.Limiting
import Lox.Proofs.Compiler.Nesting
import Lox.Proofs.Scoping
import Lox.Proofs.Compiler.Scoping
import Lox.Proofs.Compiler.Scoping.Statement
import Lox.Proofs.Bytecode.Patching
import Lox.Proofs.Statistics
import Lox.Proofs.Lexer.Tiling
import Lox.Proofs.Compiler.ErrorOrder
import Lox.Proofs.Heap.Scheduling
import Lox.Proofs.Bytecode.Bounds
import Lox.Proofs.StackTrace
