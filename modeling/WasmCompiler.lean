import WasmCompiler.Embedding
import WasmCompiler.Main
import WasmCompiler.Proofs.Effects
import WasmCompiler.Proofs.Tree.Parsing
import WasmCompiler.Proofs.Tree.Nesting
import WasmCompiler.Proofs.Tree.Lockstep
import WasmCompiler.Proofs.Tree.Roundtrip
import WasmCompiler.Proofs.Binary.Descriptors
import WasmCompiler.Proofs.Symbols.Walk
import WasmCompiler.Proofs.Symbols.Scoping
import WasmCompiler.Proofs.Symbols.Registration
import WasmCompiler.Proofs.Symbols.Fields
import WasmCompiler.Proofs.Lowering.Adequacy
import WasmCompiler.Proofs.Lowering.Slots
import WasmCompiler.Proofs.Typing.Alike
import WasmCompiler.Proofs.Typing.Scopes
import WasmCompiler.Proofs.Typing.Cells
import WasmCompiler.Proofs.Lowering.Relocatable
import WasmCompiler.Proofs.Lowering.Linking
import WasmCompiler.Proofs.Lowering.Order
import WasmCompiler.Proofs.Lowering.Relocation
import WasmCompiler.Proofs.Lowering.Functions
import WasmCompiler.Proofs.Lowering.Programs
import WasmCompiler.Proofs.Validation.Code
import WasmCompiler.Proofs.Validation.Module
import WasmCompiler.Proofs.Simulation.Programs
import WasmCompiler.Proofs.Memory.Strings
import WasmCompiler.Proofs.Memory.Allocator
import WasmCompiler.Proofs.Memory.Reserved
import WasmCompiler.Proofs.Simulation.Literals
import WasmCompiler.Proofs.Simulation.Tuples
import WasmCompiler.Proofs.Simulation.Structs
import WasmCompiler.Proofs.Token.Tiling
import WasmCompiler.Proofs.Tree.Annotations
import WasmCompiler.Proofs.Tree.Grammar
import WasmCompiler.Proofs.Tree.Interning
import WasmCompiler.Proofs.Tree.Progress
import WasmCompiler.Proofs.Lowering.Outcomes
import WasmCompiler.Proofs.Lowering.Interned
import WasmCompiler.Proofs.Lowering.Numbering
