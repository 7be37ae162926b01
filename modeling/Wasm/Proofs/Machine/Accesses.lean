import Mathlib.Algebra.Ring.Int.Defs
import Mathlib.Algebra.Ring.Nat
import Wasm.Binary.Opcode
import Wasm.Proofs.Machine.Copies

/-! # Loads and stores

A load after a store finds what is new where the two overlap (`Frame.access_exact`). -/

namespace Wasm

open List

variable {len : Nat} {m : Memory} {access : MemoryAccess} {v : Value}

/-! ## Numbers and bytes -/

namespace LittleEndian

theorem toNat_lt (bytes : List UInt8) : toNat bytes < 2 ^ (8 * bytes.length) := by
  induction bytes with
  | nil => exact Nat.one_pos
  | cons b bytes ih =>
    have hb := b.toNat_lt
    rw [toNat, length_cons, Nat.mul_succ, Nat.pow_add]
    omega

theorem getElem?_ofNat {i : Nat} (value : Nat) (h : i < len) :
    (ofNat len value)[i]? = some (.ofNat (value / 256 ^ i)) := by
  induction len generalizing value i with
  | zero => exact absurd h (Nat.not_lt_zero i)
  | succ len ih =>
    cases i with
    | zero => rw [ofNat, getElem?_cons_zero, Nat.pow_zero, Nat.div_one]
    | succ i =>
      rw [ofNat, getElem?_cons_succ, ih _ (Nat.lt_of_succ_lt_succ h), Nat.div_div_eq_div_mul,
        ← Nat.pow_succ']

end LittleEndian

namespace Value

/-- The bits of a number; zero for any other value. -/
def bits : Value → Nat
  | i32 w | f32 w => w.toNat
  | i64 w | f64 w => w.toNat
  | _ => 0

/-- The number with the bits of an integer. -/
def ofInt (n : Int) : ValueType → Value
  | .i32 => i32 (.ofInt 32 n)
  | .i64 => i64 (.ofInt 64 n)
  | .f32 => f32 (.ofInt 32 n)
  | .f64 => f64 (.ofInt 64 n)
  | t => zero t

end Value

theorem Memory.store_eq {addr value : Nat} : store addr len value m =
    if addr + len ≤ m.byteLength then .ok () (m.overwrite addr (LittleEndian.ofNat len value))
    else .error .outOfBounds m := by
  simp only [store, guarded, inBounds, decide_eq_true_eq]

namespace MemoryAccess

/-- The integer in the bytes of an access, lowest first. -/
def integer (access : MemoryAccess) (bytes : List UInt8) : Int :=
  let n := LittleEndian.toNat bytes
  if access.sign = some .signed ∧ 2 ^ (8 * bytes.length - 1) ≤ n then n - 2 ^ (8 * bytes.length)
  else n

/-- The value that an access finds in bytes. -/
def valueOf (access : MemoryAccess) (bytes : List UInt8) : Value :=
  .ofInt (access.integer bytes) access.type

variable {addr : Nat}

theorem widen_eq (w : Nat) {bytes : List UInt8} (hlen : bytes.length = len) (hpos : 0 < len) :
    widen access.sign (8 * len) w (LittleEndian.toNat bytes) = .ofInt w (access.integer bytes) := by
  subst hlen
  have hlt := LittleEndian.toNat_lt bytes
  have hpow : 2 ^ (8 * bytes.length) = 2 * 2 ^ (8 * bytes.length - 1) := by
    rw [← Nat.pow_succ', Nat.succ_eq_add_one, Nat.sub_add_cancel (by omega)]
  unfold widen integer
  by_cases hs : access.sign = some .signed
  · rw [if_pos hs, BitVec.signExtend, BitVec.toInt_eq_toNat_cond, BitVec.toNat_ofNat,
      Nat.mod_eq_of_lt hlt]
    congr 1
    simp only [hs, true_and]
    split <;> split <;> first | omega | push_cast; rfl
  · simp only [hs, if_false, false_and, BitVec.ofInt_natCast]

theorem load_word (w : Nat) {make : BitVec w → Value} {word : Nat → BitVec w} (hpos : 0 < len)
    (hword : ∀ n, word n = widen access.sign (8 * len) w n)
    (hmake : ∀ n, Value.ofInt n access.type = make (.ofInt w n)) :
    (m.load addr len >>= fun n => pure (make (word n))) =
      if addr + len ≤ m.byteLength then .ok (access.valueOf (m.slice addr len))
      else .error .outOfBounds := by
  simp only [Memory.load, Memory.inBounds, decide_eq_true_eq]
  split
  · rw [valueOf, hmake, ← widen_eq w (m.length_slice addr len) hpos, ← hword]
    rfl
  · rfl

theorem load_eq (h : access ∈ Decode.loads) : access.load m addr =
    if addr + access.byteWidth ≤ m.byteLength then
      .ok (access.valueOf (m.slice addr access.byteWidth))
    else .error .outOfBounds := by
  simp only [Decode.loads, mem_toArray, mem_cons, not_mem_nil, or_false] at h
  rcases h with rfl | rfl | rfl | rfl | rfl | rfl | rfl | rfl | rfl | rfl | rfl | rfl | rfl | rfl
  all_goals first
    | exact load_word 32 (by decide) (fun _ => rfl) fun _ => rfl
    | exact load_word 64 (by decide) (fun _ => rfl) fun _ => rfl

theorem store_eq (h : access ∈ Decode.stores) (hv : v.type? = some access.type) :
    access.store addr v = Memory.store addr access.byteWidth v.bits := by
  simp only [Decode.stores, mem_toArray, mem_cons, not_mem_nil, or_false] at h
  rcases h with rfl | rfl | rfl | rfl | rfl | rfl | rfl | rfl | rfl
  all_goals
    cases v <;> cases hv
    rfl

end MemoryAccess

/-! ## Accesses of a frame -/

def AccessKind.op (memory offset : Nat) : AccessKind → BasicOp
  | .load access => .load access memory offset
  | .store access => .store access memory offset

namespace Frame

/-- An access is next, maybe through an accessor. -/
def Accesses (f : Frame) (kind : AccessKind) (memory offset : Nat) : Prop :=
  f.func.code[f.pc]? = some (.basic (kind.op memory offset)) ∨
    ∃ id, f.inst.module.accessors.get? id = some ⟨kind, memory, offset⟩ ∧
      (f.func.code[f.pc]? = some (.basic (.loadVia id)) ∨
        f.func.code[f.pc]? = some (.basic (.storeVia id)))

variable {f : Frame} {s : Store} {memory offset : Nat} {addr : MemoryAddr} {a : BitVec 32}
  {rest : List Value}

theorem Accesses.step_eq {kind : AccessKind} (h : f.Accesses kind memory offset) :
    f.step s = (kind.op memory offset).exec { f with pc := f.pc + 1 } s := by
  obtain hop | ⟨id, hid, hop | hop⟩ := h
  · rw [step, hop]
    rfl
  all_goals
    rw [step, hop]
    simp only [Op.exec, BasicOp.exec, Frame.access, hid]
    cases kind <;> rfl

/-- Any load finds these bytes, or traps beyond them. -/
def LoadsFrom (f : Frame) (s : Store) (addr : MemoryAddr) (length : Nat) (byteAt : Nat → UInt8) :
    Prop :=
  ∀ access ∈ Decode.loads, ∀ (memory offset : Nat) (a : BitVec 32) (rest : List Value),
    f.inst.memories[memory]? = some addr → f.Accesses (.load access) memory offset →
    f.operands = .i32 a :: rest →
    f.step s = if a.toNat + offset + access.byteWidth ≤ length then
        .ok (.next (f.past (access.valueOf
          ((range' (a.toNat + offset) access.byteWidth).map byteAt) :: rest))) s
      else .error .outOfBounds s

theorem loadsFrom (f : Frame) (hm : s.memories[addr.index]? = some m) :
    f.LoadsFrom s addr m.byteLength m.byteAt := by
  intro access hload memory offset a rest haddr h hops
  rw [h.step_eq]
  simp only [AccessKind.op, BasicOp.exec, load, hops, popNat, popI32, pop, Value.asI32, bind_assoc]
  refine (bind_of_ok (memory_eq_ok haddr hm)).trans ?_
  rw [MemoryAccess.load_eq hload]
  split <;> rfl

theorem pastes_store (hstore : access ∈ Decode.stores) (hv : v.type? = some access.type)
    (h : f.Accesses (.store access) memory offset) (hops : f.operands = v :: .i32 a :: rest)
    (haddr : f.inst.memories[memory]? = some addr) (hm : s.memories[addr.index]? = some m) :
    f.PastesBytes s rest addr m (a.toNat + offset + access.byteWidth ≤ m.byteLength)
      (a.toNat + offset) access.byteWidth fun i => .ofNat (v.bits / 256 ^ i) := by
  refine pastesBytes_of_step _ ?_ hm Memory.store_eq fun hfits => Memory.pasted_overwrite
    (LittleEndian.length_ofNat _ _) (fun i hi => LittleEndian.getElem?_ofNat _ hi) hfits
  rw [h.step_eq]
  simp only [AccessKind.op, BasicOp.exec, store, hops, popNat, popI32, pop, Value.asI32, memoryAddr,
    haddr, bind_assoc, pure_bind,
    MemoryAccess.store_eq hstore hv]
  rfl

/-- **Loads and stores are exact.**  They trap where a byte is outside the memory, with an address
    that does not wrap; a load of any width finds the bytes last stored. -/
theorem access_exact (f : Frame) (s : Store) (addr : MemoryAddr) (m : Memory)
    (hm : s.memories[addr.index]? = some m) :
    f.LoadsFrom s addr m.byteLength m.byteAt ∧
    ∀ access ∈ Decode.stores, ∀ (memory offset : Nat) (v : Value) (a : BitVec 32)
      (rest : List Value), f.inst.memories[memory]? = some addr → v.type? = some access.type →
      f.Accesses (.store access) memory offset → f.operands = v :: .i32 a :: rest →
      f.PastesBytes s rest addr m (a.toNat + offset + access.byteWidth ≤ m.byteLength)
        (a.toNat + offset) access.byteWidth (fun i => .ofNat (v.bits / 256 ^ i)) ∧
      ∀ effect s', f.step s = .ok effect s' → ∀ g : Frame, g.LoadsFrom s' addr m.byteLength
        fun k => if a.toNat + offset ≤ k ∧ k < a.toNat + offset + access.byteWidth then
          .ofNat (v.bits / 256 ^ (k - (a.toNat + offset))) else m.byteAt k := by
  refine ⟨f.loadsFrom hm, fun access hstore memory offset v a rest haddr hv h hops => ?_⟩
  have hpastes := pastes_store hstore hv h hops haddr hm
  refine ⟨hpastes, fun effect s' hs' g => ?_⟩
  unfold PastesBytes at hpastes
  split at hpastes
  case isFalse => cases hs'.symm.trans hpastes
  obtain ⟨m', hstep, hm'⟩ := hpastes
  cases hs'.symm.trans hstep
  have hlen : m'.byteLength = m.byteLength := congrArg (· * pageSize) hm'.pageCount
  rw [← hlen, ← funext hm'.byteAt]
  obtain ⟨hlt, -⟩ := Array.getElem?_eq_some_iff.mp hm
  exact g.loadsFrom (Array.getElem?_setIfInBounds_self_of_lt hlt)

/-- Four bytes behind the last address, and a word with its sign. -/
theorem access_exact_edges :
    let f : Frame := { (default : Frame) with
      inst := { (default : Instance) with
        module := { (default : Module) with
          accessors := (Accessors.empty.intern ⟨.store (.full .i64), 0, 8⟩).2 }
        memories := #[⟨0⟩] }
      func := { (default : CompiledFunction) with
        code := #[.basic (.load (.full .i32) 0 4), .basic (.storeVia 0),
          .basic (.load ⟨.i32, .i8, some .signed⟩ 0 15)] } }
    let s : Store := { (default : Store) with memories := #[⟨#[.zero], none, 1⟩] }
    { f with operands := [.i32 0xFFFFFFFC] }.step s = .error .outOfBounds s ∧
    ∃ g s', { f with pc := 1, operands := [.i64 0x8877665544332211, .i32 0, .i32 0] }.step s =
        .ok (.next g) s' ∧
      g.step s' = .ok (.next (g.past [.i32 0xFFFFFF88])) s' := by
  intro f s
  constructor
  · exact ((access_exact _ s ⟨0⟩ _ rfl).1 (.full .i32) (by simp [Decode.loads]) 0 4 _ [] rfl
      (.inl rfl) rfl).trans (if_neg (by decide))
  · obtain ⟨hpastes, hloads⟩ := (access_exact
      { f with pc := 1, operands := [.i64 0x8877665544332211, .i32 0, .i32 0] } s ⟨0⟩ _ rfl).2
      (.full .i64) (by simp [Decode.stores]) 0 8 _ 0 _ rfl rfl (.inr ⟨0, rfl, .inr rfl⟩) rfl
    rw [PastesBytes, if_pos (by decide)] at hpastes
    obtain ⟨m', hstep, -⟩ := hpastes
    refine ⟨_, _, hstep, ?_⟩
    rw [hloads _ _ hstep _ ⟨.i32, .i8, some .signed⟩ (by simp [Decode.loads]) 0 15 0 [] rfl
      (.inl rfl) rfl,
      if_pos (by decide)]
    refine congrArg (fun w => EStateM.Result.ok (Effect.next (past _ [.i32 w])) _) ?_
    decide

end Frame

end Wasm
