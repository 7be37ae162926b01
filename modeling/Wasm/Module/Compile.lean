import Wasm.Module.Draft

/-! # Modules in a binary

`Module.compile` reads and checks a binary and lowers its bodies.  What spans sections is judged
at the end. -/

namespace Wasm

namespace Decode

def magic : List UInt8 := [0x00, 0x61, 0x73, 0x6D]

def header : Decode Unit := do
  let at_ ← position
  if (← bytes 4).toList ≠ magic then fail .badMagic at_
  let versionAt ← position
  let version := LittleEndian.toNat (← bytes 4).toList
  if version ≠ 1 then fail (.unsupportedVersion version) versionAt

def oneSection (options : CompileOptions) (state : Nat × Draft) : Decode (Nat × Draft) := do
  let at_ ← position
  let id ← byte
  match Section.ofId? id with
  | none => fail (.unknownSection id) at_
  | some .custom =>
    let _ ← sub (← u32)
    return state
  | some kind =>
    let range ← sub (← u32)
    if kind.rank = state.1 then fail (.duplicateSection id) at_
    if kind.rank < state.1 then fail (.sectionOutOfOrder id) at_
    let draft ← within range do
      let draft ← state.2.readSection options kind
      unless ← isEmpty do fail .sectionSizeMismatch (← position)
      return draft
    return (kind.rank, draft)

def sections (options : CompileOptions) : Nat → Nat × Draft → Decode Draft
  | 0, state => pure state.2
  | fuel + 1, state => do
    if ← isEmpty then
      pure state.2
    else
      sections options fuel (← oneSection options state)

end Decode

def Draft.finish (d : Draft) (stop : Nat) : Except CompileError Module :=
  if d.module.functions.size ≠ d.spaces.definedFuncs then
    .error ⟨.functionCountMismatch, stop⟩
  else if !d.dataSeen && d.dataCount.getD 0 ≠ 0 then
    .error ⟨.dataCountMismatch, stop⟩
  else
    match d.dataRefs.find? fun ref => ref.1 ≥ d.module.data.size with
    | some (index, at_) => .error ⟨.invalidDataIndex index, at_⟩
    | none => .ok d.module

def Decode.module (options : CompileOptions) : Decode Module := do
  header
  let draft ← sections options (← get).remaining (0, .empty options)
  match draft.finish (← position) with
  | .ok module => pure module
  | .error e => throw e

def Module.compile (options : CompileOptions) (binary : ByteArray) : Except CompileError Module :=
  match Decode.module options (.ofBytes binary 0) with
  | .ok module _ => .ok module
  | .error e _ => .error e

end Wasm
