import Wasm.Binary.Leb128
import Wasm.Instruction
import Wasm.Numeric.LittleEndian

/-! # Names, types, limits and block types in a binary -/

namespace Wasm.Decode

def f32 : Decode (BitVec 32) := return BitVec.ofNat 32 (LittleEndian.toNat (← bytes 4).toList)

def f64 : Decode (BitVec 64) := return BitVec.ofNat 64 (LittleEndian.toNat (← bytes 8).toList)

def utf8 (n : Nat) : Decode String := do
  let start ← position
  match String.fromUTF8? (← bytes n) with
  | some text => pure text
  | none => fail .invalidUtf8 start

def name : Decode String := do utf8 (← u32)

def valueType : Decode ValueType := do
  let at_ ← position
  let code ← byte
  match ValueType.ofCode? code with
  | some type => pure type
  | none => fail (.invalidValueType code) at_

def refType : Decode ValueType := do
  let at_ ← position
  let code ← byte
  match ValueType.ofCode? code with
  | some type => if type.isRef then pure type else fail (.invalidRefType code) at_
  | none => fail (.invalidRefType code) at_

def limits : Decode Limits := do
  let at_ ← position
  let flags ← byte
  let min ← u32
  if flags = 0 then
    pure ⟨min, none⟩
  else if flags = 1 then
    let max ← u32
    if min ≤ max then pure ⟨min, some max⟩ else fail (.limitsMinExceedsMax min max) at_
  else
    fail (.invalidLimitsFlags flags) at_

def blockType : Decode BlockType := do
  let at_ ← position
  let raw ← s33
  let after ← position
  if 0 ≤ raw then
    pure (.func (BitVec.ofInt 32 raw).toNat)
  else if after - at_ ≠ 1 then
    -- a number below zero is no index, and has to be a single byte
    fail .invalidBlockType at_
  else if raw = -0x40 then
    pure .empty
  else
    match ValueType.ofCode? (.ofBitVec ((BitVec.ofInt 64 raw &&& 0x7F#64).setWidth 8)) with
    | some type => pure (.value type)
    | none => fail .invalidBlockType at_

def valueTypes : Decode (List ValueType) := do many (← u32) valueType

end Wasm.Decode
