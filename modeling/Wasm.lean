import Wasm.Main
import Wasm.Proofs.Binary.Scripts
import Wasm.Proofs.Isolation.Sessions
import Wasm.Proofs.Lowering.Histories
import Wasm.Proofs.Lowering.Interning
import Wasm.Proofs.Machine.Depth
import Wasm.Proofs.Module.Carriers
import Wasm.Proofs.Module.DataCount
import Wasm.Proofs.Module.Faults
import Wasm.Proofs.Module.Offsets
import Wasm.Proofs.Module.Truncation
import Wasm.Proofs.Numeric.Division
import Wasm.Proofs.Numeric.Rounding
import Wasm.Proofs.Structured.Branching
import Wasm.Proofs.Structured.Translation
import Wasm.Proofs.Text.Numerals
import Wasm.Proofs.Validation.Heights
import Wasm.Proofs.World.Globals
import Wasm.Proofs.World.Memories
import Wasm.Proofs.World.Segments
