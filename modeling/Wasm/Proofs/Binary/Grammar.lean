import Wasm.Binary.Opcode
import Wasm.Proofs.Binary.Numbers

/-! # The grammar of instructions

The decoders read exactly the written forms (`Decode.Reads.instr`). -/

namespace Wasm

variable {b : UInt8} {n first : Nat} {op : UnaryOp}

theorem ValueType.ofCode?_eq_some {t : ValueType} : ofCode? b = some t ↔ b = t.code := by
  constructor
  · intro h
    unfold ofCode? at h
    repeat' (split at h; · cases h; assumption)
    cases h
  · rintro rfl
    exact ofCode?_code t

/-! ## Opcodes of the operators -/

namespace MemoryAccess

def loadOpcode? : MemoryAccess → Option Nat
  | ⟨.i32, .full, none⟩ => some 0x28
  | ⟨.i64, .full, none⟩ => some 0x29
  | ⟨.f32, .full, none⟩ => some 0x2A
  | ⟨.f64, .full, none⟩ => some 0x2B
  | ⟨.i32, .i8, some .signed⟩ => some 0x2C
  | ⟨.i32, .i8, some .unsigned⟩ => some 0x2D
  | ⟨.i32, .i16, some .signed⟩ => some 0x2E
  | ⟨.i32, .i16, some .unsigned⟩ => some 0x2F
  | ⟨.i64, .i8, some .signed⟩ => some 0x30
  | ⟨.i64, .i8, some .unsigned⟩ => some 0x31
  | ⟨.i64, .i16, some .signed⟩ => some 0x32
  | ⟨.i64, .i16, some .unsigned⟩ => some 0x33
  | ⟨.i64, .i32, some .signed⟩ => some 0x34
  | ⟨.i64, .i32, some .unsigned⟩ => some 0x35
  | _ => none

def storeOpcode? : MemoryAccess → Option Nat
  | ⟨.i32, .full, none⟩ => some 0x36
  | ⟨.i64, .full, none⟩ => some 0x37
  | ⟨.f32, .full, none⟩ => some 0x38
  | ⟨.f64, .full, none⟩ => some 0x39
  | ⟨.i32, .i8, none⟩ => some 0x3A
  | ⟨.i32, .i16, none⟩ => some 0x3B
  | ⟨.i64, .i8, none⟩ => some 0x3C
  | ⟨.i64, .i16, none⟩ => some 0x3D
  | ⟨.i64, .i32, none⟩ => some 0x3E
  | _ => none

end MemoryAccess

/-- Unsigned operators follow signed ones. -/
def Signedness.place : Signedness → Nat
  | signed => 0
  | unsigned => 1

def IntCompare.place : IntCompare → Nat
  | eq => 0
  | ne => 1
  | lt sign => 2 + sign.place
  | gt sign => 4 + sign.place
  | le sign => 6 + sign.place
  | ge sign => 8 + sign.place

def IntBinary.place : IntBinary → Nat
  | add => 0
  | sub => 1
  | mul => 2
  | div sign => 3 + sign.place
  | rem sign => 5 + sign.place
  | and => 7
  | or => 8
  | xor => 9
  | shl => 10
  | shr sign => 11 + sign.place
  | rotl => 13
  | rotr => 14

def FloatCompare.place : FloatCompare → Nat
  | eq => 0
  | ne => 1
  | lt => 2
  | gt => 3
  | le => 4
  | ge => 5

def FloatBinary.place : FloatBinary → Nat
  | add => 0
  | sub => 1
  | mul => 2
  | div => 3
  | min => 4
  | max => 5
  | copysign => 6

def IntUnary.place : IntUnary → Nat
  | clz => 0
  | ctz => 1
  | popcnt => 2

def FloatUnary.place : FloatUnary → Nat
  | abs => 0
  | neg => 1
  | ceil => 2
  | floor => 3
  | trunc => 4
  | nearest => 5
  | sqrt => 6

def BinaryOp.opcode : BinaryOp → Nat
  | intCompare .w32 op => 0x46 + op.place
  | intCompare .w64 op => 0x51 + op.place
  | floatCompare .w32 op => 0x5B + op.place
  | floatCompare .w64 op => 0x61 + op.place
  | int .w32 op => 0x6A + op.place
  | int .w64 op => 0x7C + op.place
  | float .w32 op => 0x92 + op.place
  | float .w64 op => 0xA0 + op.place

namespace UnaryOp

/-- The opcode of an operator without the prefix byte. -/
def opcode? : UnaryOp → Option Nat
  | eqz .w32 => some 0x45
  | eqz .w64 => some 0x50
  | int .w32 op => some (0x67 + op.place)
  | int .w64 op => some (0x79 + op.place)
  | float .w32 op => some (0x8B + op.place)
  | float .w64 op => some (0x99 + op.place)
  | wrap => some 0xA7
  | trunc .w32 .w32 sign => some (0xA8 + sign.place)
  | trunc .w32 .w64 sign => some (0xAA + sign.place)
  | extend sign => some (0xAC + sign.place)
  | trunc .w64 .w32 sign => some (0xAE + sign.place)
  | trunc .w64 .w64 sign => some (0xB0 + sign.place)
  | convert .w32 .w32 sign => some (0xB2 + sign.place)
  | convert .w32 .w64 sign => some (0xB4 + sign.place)
  | demote => some 0xB6
  | convert .w64 .w32 sign => some (0xB7 + sign.place)
  | convert .w64 .w64 sign => some (0xB9 + sign.place)
  | promote => some 0xBB
  | bitsOfFloat .w32 => some 0xBC
  | bitsOfFloat .w64 => some 0xBD
  | floatOfBits .w32 => some 0xBE
  | floatOfBits .w64 => some 0xBF
  | extendLow .w32 .w8 => some 0xC0
  | extendLow .w32 .w16 => some 0xC1
  | extendLow .w64 .w8 => some 0xC2
  | extendLow .w64 .w16 => some 0xC3
  | extendLow .w64 .w32 => some 0xC4
  | extendLow .w32 .w32 | truncSat _ _ _ => none

/-- The number behind the prefix byte. -/
def prefixedOpcode? : UnaryOp → Option Nat
  | truncSat .w32 .w32 sign => some sign.place
  | truncSat .w32 .w64 sign => some (2 + sign.place)
  | truncSat .w64 .w32 sign => some (4 + sign.place)
  | truncSat .w64 .w64 sign => some (6 + sign.place)
  | _ => none

end UnaryOp

def Instr.numericOpcode? : Instr → Option Nat
  | unary op => op.opcode?
  | binary op => some op.opcode
  | _ => none

namespace Decode

variable {access : MemoryAccess}

theorem entry?_eq_some_iff {α : Type} {table : Array α} {code : α → Option Nat}
    (hcode : ∀ i : Fin table.size, code table[i] = some (first + i))
    (hentry : ∀ a n, code a = some n → entry? table first n = some a) {a : α} :
    entry? table first n = some a ↔ code a = some n := by
  refine ⟨fun h => ?_, hentry a n⟩
  unfold entry? at h
  split at h
  · next hle =>
    obtain ⟨hlt, rfl⟩ := Array.getElem?_eq_some_iff.mp h
    exact (hcode ⟨n - first, hlt⟩).trans (congrArg some (Nat.add_sub_cancel' hle))
  · cases h

theorem entry?_loads_iff : entry? loads 0x28 n = some access ↔ access.loadOpcode? = some n := by
  refine entry?_eq_some_iff (by decide) fun access n h => ?_
  unfold MemoryAccess.loadOpcode? at h
  split at h <;> cases h <;> rfl

theorem entry?_stores_iff : entry? stores 0x36 n = some access ↔ access.storeOpcode? = some n := by
  refine entry?_eq_some_iff (by decide) fun access n h => ?_
  unfold MemoryAccess.storeOpcode? at h
  split at h <;> cases h <;> rfl

theorem entry?_numerics_binary (op : BinaryOp) :
    entry? numerics 0x45 op.opcode = some (.binary op) := by
  cases op with
  | int w op =>
    cases op with
    | div sign | rem sign | shr sign => cases w <;> cases sign <;> decide +kernel
    | _ => cases w <;> decide +kernel
  | intCompare w op =>
    cases op with
    | lt sign | gt sign | le sign | ge sign => cases w <;> cases sign <;> decide +kernel
    | _ => cases w <;> decide +kernel
  | float w op | floatCompare w op => cases w <;> cases op <;> decide +kernel

theorem entry?_numerics_unary (h : op.opcode? = some n) :
    entry? numerics 0x45 n = some (.unary op) := by
  cases op with
  | int w op | float w op => cases w <;> cases op <;> cases h <;> decide +kernel
  | eqz w | bitsOfFloat w | floatOfBits w => cases w <;> cases h <;> decide +kernel
  | wrap | demote | promote => cases h; decide +kernel
  | extend sign => cases sign <;> cases h <;> decide +kernel
  | extendLow w low => cases w <;> cases low <;> cases h <;> decide +kernel
  | trunc w w' sign | convert w w' sign =>
    cases w <;> cases w' <;> cases sign <;> cases h <;> decide +kernel
  | truncSat => cases h

theorem entry?_numerics_iff {i : Instr} :
    entry? numerics 0x45 n = some i ↔ i.numericOpcode? = some n := by
  refine entry?_eq_some_iff (by decide +kernel) fun i n h => ?_
  unfold Instr.numericOpcode? at h
  split at h
  · exact entry?_numerics_unary h
  · cases h
    exact entry?_numerics_binary _
  · cases h

theorem clampingConversions_iff :
    clampingConversions[n]? = some op ↔ op.prefixedOpcode? = some n := by
  change entry? clampingConversions 0 n = some op ↔ _
  refine entry?_eq_some_iff (by decide) fun op n h => ?_
  cases op with
  | truncSat w w' sign => cases w <;> cases w' <;> cases sign <;> cases h <;> rfl
  | _ => cases h

end Decode

/-! ## Written forms -/

/-- The written forms of a block type. -/
inductive BlockType.Form : List UInt8 → BlockType → Prop
  | empty : Form [0x40] .empty
  | value {t : ValueType} : Form [t.code] (.value t)
  | func {bs : List UInt8} {index : Nat} (h : Leb128.Signed 33 bs index) : Form bs (.func index)

/-- The written forms of the immediates of a load or store. -/
inductive MemArg.Form : List UInt8 → MemArg → Prop
  | first {bs bs' align offset} (ha : Leb128.Unsigned 32 bs align) (hbit : align.testBit 6 = false)
      (ho : Leb128.Unsigned 32 bs' offset) : Form (bs ++ bs') ⟨align, 0, offset⟩
  | indexed {bs bs' bs'' flags memory offset} (hf : Leb128.Unsigned 32 bs flags)
      (hbit : flags.testBit 6 = true) (hm : Leb128.Unsigned 32 bs' memory)
      (ho : Leb128.Unsigned 32 bs'' offset) :
      Form (bs ++ (bs' ++ bs'')) ⟨flags - 64, memory, offset⟩

namespace Instr

def Alone (bs : List UInt8) (j i : Instr) : Prop := bs = [] ∧ i = j

def OneIndex (bs : List UInt8) (f : Nat → Instr) (i : Instr) : Prop :=
  ∃ n, Leb128.Unsigned 32 bs n ∧ i = f n

def TwoIndices (bs : List UInt8) (f : Nat → Nat → Instr) (i : Instr) : Prop :=
  ∃ bs1 bs2 m n, bs = bs1 ++ bs2 ∧ Leb128.Unsigned 32 bs1 m ∧ Leb128.Unsigned 32 bs2 n ∧ i = f m n

def BranchTable (bs : List UInt8) (i : Instr) : Prop :=
  ∃ bs1 bs2 bs3 depths default, bs = bs1 ++ (bs2 ++ bs3) ∧
    Leb128.Unsigned 32 bs1 depths.length ∧ Decode.Each (Leb128.Unsigned 32) depths bs2 ∧
    Leb128.Unsigned 32 bs3 default ∧ i = .brTable depths default

/-- The immediates of a typed `select`. -/
def SelectType (bs : List UInt8) (i : Instr) : Prop :=
  ∃ bs1 t, bs = bs1 ++ [ValueType.code t] ∧ Leb128.Unsigned 32 bs1 1 ∧ i = .selectTyped t

/-- What follows the number behind the prefix byte. -/
def PrefixedForm (sub : Nat) (bs : List UInt8) (i : Instr) : Prop :=
  match sub with
  | 8 => TwoIndices bs .memoryInit i
  | 9 => OneIndex bs .dataDrop i
  | 10 => TwoIndices bs .memoryCopy i
  | 11 => OneIndex bs .memoryFill i
  | 12 => TwoIndices bs .tableInit i
  | 13 => OneIndex bs .elemDrop i
  | 14 => TwoIndices bs .tableCopy i
  | 15 => OneIndex bs .tableGrow i
  | 16 => OneIndex bs .tableSize i
  | 17 => OneIndex bs .tableFill i
  | n => ∃ op, op.prefixedOpcode? = some n ∧ Alone bs (.unary op) i

def OpcodeForm (code : Nat) (bs : List UInt8) (i : Instr) : Prop :=
  match code with
  | 0x00 => Alone bs .unreachable i
  | 0x01 => Alone bs .nop i
  | 0x02 => ∃ t, BlockType.Form bs t ∧ i = .block t
  | 0x03 => ∃ t, BlockType.Form bs t ∧ i = .loop t
  | 0x04 => ∃ t, BlockType.Form bs t ∧ i = .ifThen t
  | 0x05 => Alone bs .elseArm i
  | 0x0B => Alone bs .endScope i
  | 0x0C => OneIndex bs .br i
  | 0x0D => OneIndex bs .brIf i
  | 0x0E => BranchTable bs i
  | 0x0F => Alone bs .ret i
  | 0x10 => OneIndex bs .call i
  | 0x11 => TwoIndices bs .callIndirect i
  | 0x1A => Alone bs .drop i
  | 0x1B => Alone bs .select i
  | 0x1C => SelectType bs i
  | 0x20 => OneIndex bs .localGet i
  | 0x21 => OneIndex bs .localSet i
  | 0x22 => OneIndex bs .localTee i
  | 0x23 => OneIndex bs .globalGet i
  | 0x24 => OneIndex bs .globalSet i
  | 0x25 => OneIndex bs .tableGet i
  | 0x26 => OneIndex bs .tableSet i
  | 0x3F => OneIndex bs .memorySize i
  | 0x40 => OneIndex bs .memoryGrow i
  | 0x41 => ∃ n, Leb128.Signed 32 bs n ∧ i = .i32Const (BitVec.ofInt 32 n)
  | 0x42 => ∃ n, Leb128.Signed 64 bs n ∧ i = .i64Const (BitVec.ofInt 64 n)
  | 0x43 => bs.length = 4 ∧ i = .f32Const (BitVec.ofNat 32 (LittleEndian.toNat bs))
  | 0x44 => bs.length = 8 ∧ i = .f64Const (BitVec.ofNat 64 (LittleEndian.toNat bs))
  | 0xD0 => ∃ t, t.isRef = true ∧ bs = [ValueType.code t] ∧ i = .refNull t
  | 0xD1 => Alone bs .refIsNull i
  | 0xD2 => OneIndex bs .refFunc i
  | 0xFC => ∃ bs1 bs2 sub, bs = bs1 ++ bs2 ∧ Leb128.Unsigned 32 bs1 sub ∧ PrefixedForm sub bs2 i
  | n =>
    (∃ access arg, access.loadOpcode? = some n ∧ MemArg.Form bs arg ∧ i = .load access arg) ∨
    (∃ access arg, access.storeOpcode? = some n ∧ MemArg.Form bs arg ∧ i = .store access arg) ∨
    (∃ numeric, numeric.numericOpcode? = some n ∧ Alone bs numeric i)

/-- The written forms of an instruction. -/
def Form (bs : List UInt8) (i : Instr) : Prop :=
  ∃ code imm, bs = code :: imm ∧ OpcodeForm code.toNat imm i

end Instr

namespace Decode.Reads

theorem alone (i : Instr) : Reads (Pure.pure i) fun bs j => Instr.Alone bs i j := Reads.pure i

theorem map {α β : Type} {d : Decode α} {G : List UInt8 → α → Prop} (h : Reads d G) (f : α → β) :
    Reads (do return f (← d)) fun bs b => ∃ a, G bs a ∧ b = f a := by
  refine (h.bind fun a => Reads.pure (f a)).congr fun bs b => ?_
  constructor
  · rintro ⟨bs1, bs2, a, rfl, hg, rfl, rfl⟩
    exact ⟨a, by rwa [List.append_nil], rfl⟩
  · rintro ⟨a, hg, rfl⟩
    exact ⟨bs, [], a, (List.append_nil _).symm, hg, rfl, rfl⟩

theorem oneIndex (f : Nat → Instr) :
    Reads (do return f (← Decode.u32)) fun bs i => Instr.OneIndex bs f i := Reads.u32.map f

theorem twoIndices (f : Nat → Nat → Instr) :
    Reads (do return f (← Decode.u32) (← Decode.u32)) fun bs i => Instr.TwoIndices bs f i := by
  refine (Reads.u32.bind fun m => Reads.u32.map (f m)).congr fun bs i => ?_
  constructor
  · rintro ⟨bs1, bs2, m, rfl, hm, n, hn, rfl⟩; exact ⟨bs1, bs2, m, n, rfl, hm, hn, rfl⟩
  · rintro ⟨bs1, bs2, m, n, rfl, hm, hn, rfl⟩; exact ⟨bs1, bs2, m, rfl, hm, n, hn, rfl⟩

theorem valueType : Reads valueType fun bs t => bs = [t.code] := by
  refine Reads.position fun at_ => ?_
  refine (Reads.byte.bind (H := fun b bs t => bs = [] ∧ b = t.code) fun b => ?_).congr
    fun bs t => ?_
  · cases hb : ValueType.ofCode? b with
    | none =>
      refine (Reads.fail _ _).congr fun bs t => ⟨False.elim, ?_⟩
      rintro ⟨-, rfl⟩
      rw [ValueType.ofCode?_code] at hb
      cases hb
    | some t =>
      cases ValueType.ofCode?_eq_some.mp hb
      refine (Reads.pure t).congr fun bs t' => and_congr_right fun _ => ?_
      constructor
      · rintro rfl; rfl
      · intro h
        rw [← ValueType.ofCode?_eq_some, ValueType.ofCode?_code] at h
        exact (Option.some.inj h).symm
  · constructor
    · rintro ⟨_, _, b, rfl, rfl, rfl, rfl⟩; rfl
    · rintro rfl; exact ⟨_, [], t.code, rfl, rfl, rfl, rfl⟩

theorem refType : Reads refType fun bs t => t.isRef = true ∧ bs = [t.code] := by
  refine Reads.position fun at_ => ?_
  refine (Reads.byte.bind (H := fun b bs t => bs = [] ∧ t.isRef = true ∧ b = t.code)
    fun b => ?_).congr fun bs t => ?_
  · cases hb : ValueType.ofCode? b with
    | none =>
      refine (Reads.fail _ _).congr fun bs t => ⟨False.elim, ?_⟩
      rintro ⟨-, -, rfl⟩
      rw [ValueType.ofCode?_code] at hb
      cases hb
    | some t =>
      cases ValueType.ofCode?_eq_some.mp hb
      refine ((Reads.pure t).guard _ _).congr fun bs t' => ?_
      constructor
      · rintro ⟨hr, rfl, rfl⟩; exact ⟨rfl, hr, rfl⟩
      · rintro ⟨rfl, hr, h⟩
        rw [← ValueType.ofCode?_eq_some, ValueType.ofCode?_code] at h
        cases Option.some.inj h
        exact ⟨hr, rfl, rfl⟩
  · constructor
    · rintro ⟨_, _, b, rfl, rfl, rfl, hr, rfl⟩; exact ⟨hr, rfl⟩
    · rintro ⟨hr, rfl⟩; exact ⟨_, [], t.code, rfl, rfl, rfl, hr, rfl⟩

theorem signed_singleton_neg {n : Int} (h : Leb128.Signed 33 [b] n) (hn : ¬ 0 ≤ n) :
    64 ≤ b.toNat ∧ b.toNat < 128 ∧ n = (b.toNat : Int) - 128 := by
  have hv := h.value_eq
  unfold Leb128.signedValue at hv
  split at hv
  · omega
  · omega

theorem signed_singleton (hlo : 64 ≤ b.toNat) (hhi : b.toNat < 128) :
    Leb128.Signed 33 [b] ((b.toNat : Int) - 128) := by
  have hpow : (Nat.pow 2 (33 - 1) : Int) = 4294967296 := by decide
  refine ⟨hhi, (by decide : 1 ≤ Leb128.maxGroups 33), ?_, by omega, by omega⟩
  unfold Leb128.signedValue
  rw [if_neg (by omega)]

theorem code_of_negative : ∀ b : UInt8, b.toNat < 128 →
    UInt8.ofBitVec ((BitVec.ofInt 64 ((b.toNat : Int) - 128) &&& 0x7F#64).setWidth 8) = b :=
  forall_byte (by decide +kernel)

theorem toNat_cast {bs : List UInt8} {n : Int} (h : Leb128.Signed 33 bs n) (hn : 0 ≤ n) :
    ((BitVec.ofInt 32 n).toNat : Int) = n := by
  have hlt : n < 2 ^ 32 := h.lt
  rw [BitVec.toNat_ofInt, Int.toNat_of_nonneg (by omega)]
  omega

theorem blockType : Reads blockType BlockType.Form := by
  intro c bt c'
  have hpos : ∀ c : Cursor, Decode.position c = .ok c.position c := fun _ => rfl
  unfold Decode.blockType
  rw [bind_of_ok (hpos c), bind_eq_ok]
  constructor
  · rintro ⟨raw, c1, hraw, h⟩
    obtain ⟨bs, hs, ho⟩ := (Reads.s33 c raw c1).mp hraw
    rw [bind_of_ok (hpos c1)] at h
    by_cases hn : 0 ≤ raw
    · rw [if_pos hn] at h
      cases h
      exact ⟨bs, .func (by rwa [toNat_cast hs hn]), ho⟩
    · rw [if_neg hn] at h
      by_cases hlen : c1.position - c.position ≠ 1
      · rw [if_pos hlen] at h
        cases h
      · rw [if_neg hlen] at h
        have hone : bs.length = 1 := by
          have hp := ho.pos_eq
          unfold Cursor.position at hlen
          rw [ho.base] at hlen
          omega
        obtain ⟨b, rfl⟩ := List.length_eq_one_iff.mp hone
        obtain ⟨hlo, hhi, rfl⟩ := signed_singleton_neg hs hn
        by_cases he : (b.toNat : Int) - 128 = -0x40
        · rw [if_pos he] at h
          cases h
          have hb : b = 0x40 := UInt8.toNat_inj.mp (by show b.toNat = 64; omega)
          subst hb
          exact ⟨[0x40], .empty, ho⟩
        · rw [if_neg he] at h
          rw [code_of_negative b hhi] at h
          cases ht : ValueType.ofCode? b with
          | none => rw [ht] at h; cases h
          | some t =>
            rw [ht] at h
            cases h
            cases ValueType.ofCode?_eq_some.mp ht
            exact ⟨_, .value, ho⟩
  · rintro ⟨bs, hform, ho⟩
    have hafter : bs.length = 1 → ¬ c'.position - c.position ≠ 1 := by
      intro hlen hne
      refine hne ?_
      unfold Cursor.position
      rw [ho.base, ho.pos_eq, hlen]
      omega
    cases hform with
    | @func _ index hs =>
      refine ⟨_, c', (Reads.s33 c _ c').mpr ⟨bs, hs, ho⟩, ?_⟩
      have hcast : (BitVec.ofInt 32 (index : Int)).toNat = index :=
        Int.ofNat.inj (toNat_cast hs (Int.natCast_nonneg index))
      rw [bind_of_ok (hpos c'), if_pos (Int.natCast_nonneg index), hcast]
      rfl
    | empty =>
      refine ⟨-0x40, c', (Reads.s33 c _ c').mpr ⟨[0x40], ?_, ho⟩, ?_⟩
      · exact signed_singleton (b := 0x40) (by decide) (by decide)
      · rw [bind_of_ok (hpos c'), if_neg (by decide), if_neg (hafter rfl)]
        rfl
    | @value t =>
      have hcode : 64 < t.code.toNat ∧ t.code.toNat < 128 := by cases t <;> decide
      refine ⟨_, c', (Reads.s33 c _ c').mpr ⟨[t.code], signed_singleton (by omega) hcode.2, ho⟩, ?_⟩
      rw [bind_of_ok (hpos c'), if_neg (by omega), if_neg (hafter rfl), if_neg (by omega),
        code_of_negative t.code hcode.2, ValueType.ofCode?_code]
      rfl

theorem memArg : Reads memArg MemArg.Form := by
  have hoffset : ∀ flags memory : Nat, Reads (do return (MemArg.mk
      (if flags.testBit 6 = true then flags - 64 else flags) memory (← Decode.u32)))
      fun bs arg => ∃ offset, Leb128.Unsigned 32 bs offset ∧
        arg = ⟨if flags.testBit 6 = true then flags - 64 else flags, memory, offset⟩ :=
    fun flags memory => Reads.u32.map _
  refine (Reads.u32.bind fun flags => (Reads.u32.bind fun memory => hoffset flags memory).ite
    ((Reads.pure 0).bind fun memory => hoffset flags memory)).congr fun bs arg => ?_
  constructor
  · rintro ⟨bs1, _, flags, rfl, hf, ⟨hbit, bs2, bs3, memory, rfl, hm, offset, ho, rfl⟩ |
      ⟨hbit, _, bs3, _, rfl, ⟨rfl, rfl⟩, offset, ho, rfl⟩⟩
    · rw [if_pos hbit]
      exact .indexed hf hbit hm ho
    · rw [if_neg hbit]
      exact .first hf (Bool.eq_false_iff.mpr hbit) ho
  · intro h
    cases h with
    | first ha hbit ho =>
      have hbit' := Bool.eq_false_iff.mp hbit
      refine ⟨_, _, _, rfl, ha, .inr ⟨hbit', [], _, 0, rfl, ⟨rfl, rfl⟩, _, ho, ?_⟩⟩
      rw [if_neg hbit']
    | indexed hf hbit hm ho =>
      refine ⟨_, _, _, rfl, hf, .inl ⟨hbit, _, _, _, rfl, hm, _, ho, ?_⟩⟩
      rw [if_pos hbit]

theorem selectType (at_ : Nat) :
    Reads (do return Instr.selectTyped (← Decode.selectType at_)) Instr.SelectType := by
  have hs : Reads (Decode.selectType at_) fun bs t =>
      ∃ bs1, bs = bs1 ++ [ValueType.code t] ∧ Leb128.Unsigned 32 bs1 1 := by
    refine (Reads.u32.bind fun count => Reads.valueType.guard _ _).congr fun bs t => ?_
    constructor
    · rintro ⟨bs1, _, count, rfl, hc, rfl, rfl⟩; exact ⟨bs1, rfl, hc⟩
    · rintro ⟨bs1, rfl, hc⟩; exact ⟨bs1, _, 1, rfl, hc, rfl, rfl⟩
  refine (hs.map Instr.selectTyped).congr fun bs i => ?_
  constructor
  · rintro ⟨t, ⟨bs1, rfl, hc⟩, rfl⟩; exact ⟨bs1, t, rfl, hc, rfl⟩
  · rintro ⟨bs1, t, rfl, hc, rfl⟩; exact ⟨t, ⟨bs1, rfl, hc⟩, rfl⟩

theorem branchTable :
    Reads (do return Instr.brTable (← Decode.many (← Decode.u32) Decode.u32) (← Decode.u32))
      Instr.BranchTable := by
  refine (Reads.u32.bind fun n => (Reads.u32.many n).bind fun depths =>
    Reads.u32.map (Instr.brTable depths)).congr fun bs i => ?_
  constructor
  · rintro ⟨bs1, _, n, rfl, hn, bs2, bs3, depths, rfl, ⟨rfl, he⟩, default, hd, rfl⟩
    exact ⟨bs1, bs2, bs3, depths, default, rfl, hn, he, hd, rfl⟩
  · rintro ⟨bs1, bs2, bs3, depths, default, rfl, hn, he, hd, rfl⟩
    exact ⟨bs1, _, _, rfl, hn, bs2, bs3, depths, rfl, ⟨rfl, he⟩, default, hd, rfl⟩

theorem clampingConversions_lt (h : clampingConversions[n]? = some op) : n < 8 :=
  (Array.getElem?_eq_some_iff.mp h).1

theorem prefixed (at_ : Nat) (code : UInt8) : Reads (prefixed at_ code) fun bs i =>
      ∃ bs1 bs2 sub, bs = bs1 ++ bs2 ∧ Leb128.Unsigned 32 bs1 sub ∧
        Instr.PrefixedForm sub bs2 i := by
  refine Reads.u32.bind fun sub => ?_
  cases hop : clampingConversions[sub]? with
  | some op =>
    have hlt := clampingConversions_lt hop
    refine (alone (.unary op)).congr fun bs i => ?_
    unfold Instr.PrefixedForm
    split <;> first | omega | skip
    constructor
    · intro h; exact ⟨op, clampingConversions_iff.mp hop, h⟩
    · rintro ⟨op', hop', h⟩
      cases Option.some.inj (hop.symm.trans (clampingConversions_iff.mpr hop'))
      exact h
  | none =>
    dsimp only
    split
    any_goals first | exact oneIndex _ | exact twoIndices _
    refine (Reads.fail _ _).congr fun bs i => ⟨False.elim, ?_⟩
    unfold Instr.PrefixedForm
    split <;> first | contradiction | skip
    rintro ⟨op, hop', -⟩
    cases hop.symm.trans (clampingConversions_iff.mpr hop')

theorem entry?_eq_some {α : Type} {table : Array α} {a : α} (h : entry? table first n = some a) :
    first ≤ n ∧ n < first + table.size := by
  unfold entry? at h
  split at h
  · next hle =>
      obtain ⟨hlt, -⟩ := Array.getElem?_eq_some_iff.mp h
      exact ⟨hle, by omega⟩
  · cases h

theorem tabled (n : Nat) (code : UInt8) (at_ : Nat) : Reads
      (match entry? loads 0x28 n, entry? stores 0x36 n, entry? numerics 0x45 n with
      | some access, _, _ => return .load access (← Decode.memArg)
      | none, some access, _ => return .store access (← Decode.memArg)
      | none, none, some numeric => return numeric
      | none, none, none => Decode.fail (.unknownOpcode code) at_)
      fun bs i =>
        (∃ access arg, entry? loads 0x28 n = some access ∧ MemArg.Form bs arg ∧
          i = .load access arg) ∨
        (∃ access arg, entry? stores 0x36 n = some access ∧ MemArg.Form bs arg ∧
          i = .store access arg) ∨
        (∃ numeric, entry? numerics 0x45 n = some numeric ∧ Instr.Alone bs numeric i) := by
  cases hl : entry? loads 0x28 n with
  | some access =>
    have hload : n < 0x36 := (entry?_eq_some hl).2
    refine (Reads.memArg.map (Instr.load access)).congr fun bs i => ?_
    constructor
    · rintro ⟨arg, harg, rfl⟩; exact .inl ⟨access, arg, rfl, harg, rfl⟩
    · rintro (⟨access', arg, ha, harg, rfl⟩ | ⟨_, _, hs, -⟩ | ⟨_, hm, -⟩)
      · cases ha; exact ⟨arg, harg, rfl⟩
      · have := (entry?_eq_some hs).1; omega
      · have := (entry?_eq_some hm).1; omega
  | none =>
    cases hs : entry? stores 0x36 n with
    | some access =>
      have hstore : n < 0x3F := (entry?_eq_some hs).2
      refine (Reads.memArg.map (Instr.store access)).congr fun bs i => ?_
      constructor
      · rintro ⟨arg, harg, rfl⟩; exact .inr (.inl ⟨access, arg, rfl, harg, rfl⟩)
      · rintro (⟨_, _, ha, -⟩ | ⟨access', arg, ha, harg, rfl⟩ | ⟨_, hm, -⟩)
        · cases ha
        · cases ha; exact ⟨arg, harg, rfl⟩
        · have := (entry?_eq_some hm).1; omega
    | none =>
      cases hm : entry? numerics 0x45 n with
      | some numeric =>
        refine (alone numeric).congr fun bs i => ?_
        constructor
        · intro h; exact .inr (.inr ⟨numeric, rfl, h⟩)
        · rintro (⟨_, _, ha, -⟩ | ⟨_, _, ha, -⟩ | ⟨numeric', ha, h⟩)
          · cases ha
          · cases ha
          · cases ha; exact h
      | none =>
        refine (Reads.fail _ _).congr fun bs i => ⟨False.elim, ?_⟩
        rintro (⟨_, _, ha, -⟩ | ⟨_, _, ha, -⟩ | ⟨_, ha, -⟩)
        · cases ha
        · cases ha
        · cases ha

theorem instr : Reads instr Instr.Form := by
  refine Reads.position fun at_ => ?_
  refine (Reads.byte.bind (H := fun code bs i => Instr.OpcodeForm code.toNat bs i)
    fun code => ?_).congr fun bs i => ?_
  · generalize code.toNat = n
    unfold Instr.OpcodeForm
    split
    any_goals first | exact alone _ | exact oneIndex _ | exact Reads.blockType.map _
    · exact branchTable
    · exact twoIndices _
    · exact selectType _
    · exact Reads.s32.map _
    · exact Reads.s64.map _
    · refine (Reads.f32.map Instr.f32Const).congr fun bs i => ?_
      constructor
      · rintro ⟨w, ⟨hlen, rfl⟩, rfl⟩; exact ⟨hlen, rfl⟩
      · rintro ⟨hlen, rfl⟩; exact ⟨_, ⟨hlen, rfl⟩, rfl⟩
    · refine (Reads.f64.map Instr.f64Const).congr fun bs i => ?_
      constructor
      · rintro ⟨w, ⟨hlen, rfl⟩, rfl⟩; exact ⟨hlen, rfl⟩
      · rintro ⟨hlen, rfl⟩; exact ⟨_, ⟨hlen, rfl⟩, rfl⟩
    · refine (Reads.refType.map Instr.refNull).congr fun bs i => ?_
      constructor
      · rintro ⟨t, ⟨hr, rfl⟩, rfl⟩; exact ⟨t, hr, rfl, rfl⟩
      · rintro ⟨t, hr, rfl, rfl⟩; exact ⟨t, ⟨hr, rfl⟩, rfl⟩
    · exact prefixed _ _
    · refine (tabled _ _ _).congr fun bs i => ?_
      simp only [entry?_loads_iff, entry?_stores_iff, entry?_numerics_iff]
  · constructor
    · rintro ⟨_, imm, code, rfl, rfl, h⟩; exact ⟨code, imm, rfl, h⟩
    · rintro ⟨code, imm, rfl, h⟩; exact ⟨[code], imm, code, rfl, rfl, h⟩

end Decode.Reads

/-! ## Block types from any bytes -/

namespace Decode

variable {α : Type} {c : Cursor}

theorem Reads.exists_ok_iff {d : Decode α} {G : List UInt8 → α → Prop} (h : Reads d G) {a : α} :
    (∃ c', d c = .ok a c') ↔ ∃ bs, G bs a ∧ bs <+: c.left := by
  constructor
  · rintro ⟨c', hd⟩
    obtain ⟨bs, hg, ho⟩ := (h c a c').mp hd
    exact ⟨bs, hg, c'.left, ho.left.symm⟩
  · rintro ⟨bs, hg, rest, hleft⟩
    obtain ⟨c', ho, -⟩ := Cursor.exists_over hleft.symm
    exact ⟨c', (h c a c').mpr ⟨bs, hg, ho⟩⟩

theorem singleton_prefix_iff {bs : List UInt8} : [b] <+: bs ↔ bs.head? = some b := by
  cases bs with
  | nil => simp
  | cons b' bs => simp [List.cons_prefix_cons, eq_comm]

theorem blockType_func_iff (c : Cursor) (index : Nat) : (∃ c', blockType c = .ok (.func index) c') ↔
    ∃ bs, Leb128.Signed 33 bs index ∧ bs <+: c.left := by
  rw [Reads.blockType.exists_ok_iff]
  refine exists_congr fun bs => and_congr_left fun _ => ⟨fun h => ?_, .func⟩
  cases h with
  | func h => exact h

theorem blockType_empty_iff (c : Cursor) :
    (∃ c', blockType c = .ok .empty c') ↔ c.left.head? = some 0x40 := by
  rw [Reads.blockType.exists_ok_iff, ← singleton_prefix_iff]
  constructor
  · rintro ⟨_, ⟨⟩, h⟩
    exact h
  · exact fun h => ⟨_, .empty, h⟩

theorem blockType_value_iff (c : Cursor) (type : ValueType) :
    (∃ c', blockType c = .ok (.value type) c') ↔ c.left.head? = some type.code := by
  rw [Reads.blockType.exists_ok_iff, ← singleton_prefix_iff]
  constructor
  · rintro ⟨_, ⟨⟩, h⟩
    exact h
  · exact fun h => ⟨_, .value, h⟩

/-- **Block types are decoded unambiguously**: an index as a signed number of 33 bits, which 32 bits
    hold, or one of the fixed bytes. -/
theorem blockType_unambiguous (c : Cursor) : (∀ index, (∃ c', blockType c = .ok (.func index) c') ↔
      ∃ bs, Leb128.Signed 33 bs index ∧ index < 2 ^ 32 ∧ bs <+: c.left) ∧
    ((∃ c', blockType c = .ok .empty c') ↔ c.left.head? = some 0x40) ∧
    (∀ type, (∃ c', blockType c = .ok (.value type) c') ↔ c.left.head? = some type.code) ∧
    ((∃ e c', blockType c = .error e c') ↔
      (¬ ∃ bs n, 0 ≤ n ∧ Leb128.Signed 33 bs n ∧ bs <+: c.left) ∧ c.left.head? ≠ some 0x40 ∧
        ∀ type : ValueType, c.left.head? ≠ some type.code) ∧
    ∀ raw c', s33 c = .ok raw c' → 0 ≤ raw →
      blockType c = .ok (.func (BitVec.ofInt 32 raw).toNat) c' ∧
        ((BitVec.ofInt 32 raw).toNat : Int) = raw := by
  have hlt : ∀ {bs : List UInt8} {n : Int}, Leb128.Signed 33 bs n → n < 2 ^ 32 := fun h => h.lt
  refine ⟨fun index => ?_, blockType_empty_iff c, blockType_value_iff c, ⟨?_, ?_⟩,
    fun raw c' hraw hpos => ?_⟩
  · rw [blockType_func_iff]
    refine exists_congr fun bs => and_congr_right fun h => ⟨fun hp => ⟨?_, hp⟩, And.right⟩
    exact Int.ofNat_lt.mp (hlt h)
  · rintro ⟨e, c', herr⟩
    have hok : ∀ bt, ¬ ∃ c', blockType c = .ok bt c' := by
      rintro bt ⟨c1, h⟩
      rw [herr] at h
      cases h
    refine ⟨?_, fun h => hok _ ((blockType_empty_iff c).mpr h),
      fun t h => hok _ ((blockType_value_iff c t).mpr h)⟩
    rintro ⟨bs, n, hn, hs, hp⟩
    lift n to ℕ using hn
    exact hok _ ((blockType_func_iff c n).mpr ⟨bs, hs, hp⟩)
  · rintro ⟨hfunc, hempty, hvalue⟩
    cases hd : blockType c with
    | error e c' => exact ⟨e, c', rfl⟩
    | ok bt c' =>
      cases bt with
      | empty => exact absurd ((blockType_empty_iff c).mp ⟨c', hd⟩) hempty
      | value type => exact absurd ((blockType_value_iff c type).mp ⟨c', hd⟩) (hvalue type)
      | func index =>
        obtain ⟨bs, hs, hp⟩ := (blockType_func_iff c index).mp ⟨c', hd⟩
        exact absurd ⟨bs, index, Int.natCast_nonneg index, hs, hp⟩ hfunc
  · obtain ⟨bs, hs, ho⟩ := (Reads.s33 c raw c').mp hraw
    have hcut := Reads.toNat_cast hs hpos
    exact ⟨(Reads.blockType c _ c').mpr ⟨bs, .func (hcut.symm ▸ hs), ho⟩, hcut⟩

end Decode

end Wasm
