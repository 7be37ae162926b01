import Wasm.Proofs.Machine.Changes

/-! # Bulk copies

A range gets what its source held before, however the two overlap. -/

namespace Wasm

open List Store

variable {m : Memory} {src source : Nat}

namespace Frame

/-- The frame behind its next operation. -/
def past (f : Frame) (operands : List Value) : Frame := { f with pc := f.pc + 1, operands }

/-- An operation is next, its arguments on top. -/
structure At (f : Frame) (op : BasicOp) (args rest : List Value) : Prop where
  code : f.func.code[f.pc]? = some (.basic op)
  operands : f.operands = args ++ rest

/-- The next step replaces a range of a memory, or traps. -/
def PastesBytes (f : Frame) (s : Store) (rest : List Value) (addr : MemoryAddr) (m : Memory)
    (fits : Prop) [Decidable fits] (dst len : Nat) (new : Nat → UInt8) : Prop :=
  if fits then
    ∃ m', f.step s = .ok (.next (f.past rest))
        { s with memories := s.memories.setIfInBounds addr.index m' } ∧ m.Pasted dst len new m'
  else f.step s = .error .outOfBounds s

/-- The next step replaces a range of a table, or traps. -/
def PastesEntries (f : Frame) (s : Store) (rest : List Value) (addr : TableAddr) (t : TableInst)
    (fits : Prop) [Decidable fits] (dst len : Nat) (new : Nat → Option (Option Ref)) : Prop :=
  if fits then
    ∃ table, f.step s = .ok (.next (f.past rest))
        { s with tables := s.tables.setIfInBounds addr.index { t with table } } ∧
      t.table.Pasted dst len new table
  else f.step s = .error .tableOutOfBounds s

variable {f : Frame} {s : Store} {rest : List Value} {dst len : Nat} {fits : Prop} [Decidable fits]

theorem pastesBytes_of_step {addr : MemoryAddr} (op : MemoryM Unit) {bytes : List UInt8}
    {new : Nat → UInt8}
    (hstep : f.step s = (Store.onMemory addr op >>= fun _ => pure (.next (f.past rest))) s)
    (hm : s.memories[addr.index]? = some m)
    (hop : op m = if fits then .ok () (m.overwrite dst bytes) else .error .outOfBounds m)
    (hfits : fits → m.Pasted dst len new (m.overwrite dst bytes)) :
    f.PastesBytes s rest addr m fits dst len new := by
  unfold PastesBytes
  by_cases h : fits
  · have hdone : Store.onMemory addr op s = .ok () { s with
        memories := s.memories.setIfInBounds addr.index (m.overwrite dst bytes) } := by
      simp only [onMemory_eq, hm, hop, if_pos h]
    rw [if_pos h]
    exact ⟨_, hstep.trans (bind_of_ok hdone), hfits h⟩
  · rw [if_neg h, hstep, bind_of_error]
    simp only [onMemory_eq, hm, hop, if_neg h, setIfInBounds_getElem? hm]

theorem pastesEntries_of_step {addr : TableAddr} {t : TableInst} (op : TableM Ref Unit)
    {entries : List (Option Ref)} {new : Nat → Option (Option Ref)}
    (hstep : f.step s = (Store.onTable addr op >>= fun _ => pure (.next (f.past rest))) s)
    (ht : s.tables[addr.index]? = some t)
    (hop : op t.table = if fits then .ok () (t.table.overwrite dst entries)
      else .error .tableOutOfBounds t.table)
    (hfits : fits → t.table.Pasted dst len new (t.table.overwrite dst entries)) :
    f.PastesEntries s rest addr t fits dst len new := by
  unfold PastesEntries
  by_cases h : fits
  · have hdone : Store.onTable addr op s = .ok () { s with
        tables := s.tables.setIfInBounds addr.index
          { t with table := t.table.overwrite dst entries } } := by
      simp only [onTable_eq, ht, hop, if_pos h]
    rw [if_pos h]
    exact ⟨_, hstep.trans (bind_of_ok hdone), hfits h⟩
  · rw [if_neg h, hstep, bind_of_error]
    simp only [onTable_eq, ht, hop, if_neg h, setIfInBounds_getElem? ht]

/-! ## Memories -/

section Memories

variable {memory : Nat} {addr : MemoryAddr}

theorem pastes_memoryFill {dst value len : BitVec 32}
    (h : f.At (.memoryFill memory) [.i32 len, .i32 value, .i32 dst] rest)
    (haddr : f.inst.memories[memory]? = some addr) (hm : s.memories[addr.index]? = some m) :
    f.PastesBytes s rest addr m (dst.toNat + len.toNat ≤ m.byteLength) dst.toNat len.toNat
      fun _ => .ofNat value.toNat := by
  refine pastesBytes_of_step _ ?_ hm Memory.fill_eq fun hfits => Memory.pasted_overwrite
    length_replicate (fun i hi => by rw [getElem?_replicate, if_pos hi]) hfits
  rw [step, h.code]
  simp only [Op.exec, BasicOp.exec, memoryFill, h.operands, popNat, popI32, pop, cons_append,
    Value.asI32, memoryAddr, haddr, bind_assoc, pure_bind]
  rfl

theorem pastes_memoryInit {data : Nat}
    (hop : f.func.code[f.pc]? = some (.basic (.memoryInit data memory)))
    (hrange : popRange f.operands = (dst, src, len, rest))
    (haddr : f.inst.memories[memory]? = some addr) (hm : s.memories[addr.index]? = some m) :
    f.PastesBytes s rest addr m
      (src + len ≤ (f.dataContents s data).size ∧ dst + len ≤ m.byteLength) dst len
      fun i => (f.dataContents s data).data[src + i]?.getD 0 := by
  refine pastesBytes_of_step _ ?_ hm (m.init_eq dst src len _) fun hfits => ?_
  · rw [step, hop]
    simp only [Op.exec, BasicOp.exec, memoryInit, hrange, memoryAddr, haddr, bind_assoc, pure_bind]
    rfl
  · have hsize : (f.dataContents s data).data.size = (f.dataContents s data).size := rfl
    rw [toList_eq_data, ByteArray.data_extract]
    refine Memory.pasted_overwrite ?_ (fun i hi => ?_) hfits.2
    · rw [Array.length_toList, Array.size_extract]
      omega
    · rw [Array.getElem?_toList, Array.getElem?_extract, if_pos (by omega),
        Array.getElem?_eq_getElem (by omega)]
      rfl

theorem memory_eq_ok (haddr : f.inst.memories[memory]? = some addr)
    (hm : s.memories[addr.index]? = some m) : f.memory memory s = .ok m s := by
  simp only [Frame.memory, memoryAddr, haddr, pure_bind]
  rw [bind_of_ok (get_apply s), hm]
  rfl

theorem pastes_memoryCopy {srcAddr : MemoryAddr} {from_ : Memory}
    (hop : f.func.code[f.pc]? = some (.basic (.memoryCopy memory source)))
    (hrange : popRange f.operands = (dst, src, len, rest))
    (haddr : f.inst.memories[memory]? = some addr) (hm : s.memories[addr.index]? = some m)
    (hsrc : f.inst.memories[source]? = some srcAddr)
    (hfrom : s.memories[srcAddr.index]? = some from_) :
    f.PastesBytes s rest addr m (src + len ≤ from_.byteLength ∧ dst + len ≤ m.byteLength) dst len
      fun i => from_.byteAt (src + i) := by
  refine pastesBytes_of_step (Memory.copyFrom from_ dst src len) ?_ hm Memory.copyFrom_eq
    fun hfits => Memory.pasted_overwrite (from_.length_slice src len)
      (fun i => Memory.getElem?_slice) hfits.2
  rw [step, hop]
  simp only [Op.exec, BasicOp.exec, memoryCopy, hrange, memoryAddr, haddr, hsrc, pure_bind]
  by_cases heq : addr = srcAddr
  · subst heq
    cases hm.symm.trans hfrom
    rw [if_pos rfl]
    simp only [bind_assoc, pure_bind]
    refine bind_congr_apply ?_
    rw [onMemory_eq, onMemory_eq, hm]
    rfl
  · rw [if_neg heq]
    simp only [bind_assoc, pure_bind]
    exact bind_of_ok (memory_eq_ok hsrc hfrom)

end Memories

/-! ## Tables -/

section Tables

variable {table : Nat} {addr : TableAddr} {t : TableInst}

theorem pastes_tableFill {dst len : BitVec 32} {value : Value}
    (h : f.At (.tableFill table) [.i32 len, value, .i32 dst] rest)
    (haddr : f.inst.tables[table]? = some addr) (ht : s.tables[addr.index]? = some t) :
    f.PastesEntries s rest addr t (dst.toNat + len.toNat ≤ t.table.size) dst.toNat len.toNat
      fun _ => some (Ref.ofValue? value) := by
  refine pastesEntries_of_step _ ?_ ht Table.fill_eq fun hfits => Table.pasted_overwrite
    length_replicate (fun i hi => by rw [getElem?_replicate, if_pos hi]) hfits
  rw [step, h.code]
  simp only [Op.exec, BasicOp.exec, tableFill, h.operands, popNat, popI32, pop, cons_append,
    Value.asI32, tableAddr, haddr, bind_assoc, pure_bind]
  rfl

theorem pastes_tableInit {elem : Nat}
    (hop : f.func.code[f.pc]? = some (.basic (.tableInit elem table)))
    (hrange : popRange f.operands = (dst, src, len, rest))
    (haddr : f.inst.tables[table]? = some addr) (ht : s.tables[addr.index]? = some t) :
    f.PastesEntries s rest addr t
      (src + len ≤ (f.elemEntries s elem).size ∧ dst + len ≤ t.table.size) dst len
      fun i => (f.elemEntries s elem)[src + i]? := by
  refine pastesEntries_of_step _ ?_ ht (t.table.init_eq dst src len _) fun hfits =>
    Table.pasted_overwrite (Table.length_extract hfits.1)
      (fun i => Table.getElem?_extract hfits.1) hfits.2
  rw [step, hop]
  simp only [Op.exec, BasicOp.exec, tableInit, hrange, tableAddr, haddr, bind_assoc, pure_bind]
  rfl

theorem table_eq_ok (haddr : f.inst.tables[table]? = some addr)
    (ht : s.tables[addr.index]? = some t) : f.table table s = .ok t s := by
  simp only [Frame.table, tableAddr, haddr, pure_bind]
  rw [bind_of_ok (get_apply s), ht]
  rfl

theorem pastes_tableCopy {srcAddr : TableAddr} {from_ : TableInst}
    (hop : f.func.code[f.pc]? = some (.basic (.tableCopy table source)))
    (hrange : popRange f.operands = (dst, src, len, rest))
    (haddr : f.inst.tables[table]? = some addr) (ht : s.tables[addr.index]? = some t)
    (hsrc : f.inst.tables[source]? = some srcAddr) (hfrom : s.tables[srcAddr.index]? = some from_) :
    f.PastesEntries s rest addr t (src + len ≤ from_.table.size ∧ dst + len ≤ t.table.size) dst len
      fun i => from_.table.entries[src + i]? := by
  refine pastesEntries_of_step (Table.copyFrom from_.table dst src len) ?_ ht
    Table.copyFrom_eq fun hfits => Table.pasted_overwrite (Table.length_extract hfits.1)
      (fun i => Table.getElem?_extract hfits.1) hfits.2
  rw [step, hop]
  simp only [Op.exec, BasicOp.exec, tableCopy, hrange, tableAddr, haddr, hsrc, pure_bind]
  by_cases heq : addr = srcAddr
  · subst heq
    cases ht.symm.trans hfrom
    rw [if_pos rfl]
    simp only [bind_assoc, pure_bind]
    refine bind_congr_apply ?_
    rw [onTable_eq, onTable_eq, ht]
    dsimp only
    rw [Table.copy_eq]
  · rw [if_neg heq]
    simp only [bind_assoc, pure_bind]
    exact bind_of_ok (table_eq_ok hsrc hfrom)

end Tables

/-- **Bulk operations replace a range by what its source held before**, whichever objects the two
    are, and trap exactly where a range does not lie in its object. -/
theorem bulk_snapshot (f : Frame) (s : Store) (dst src len : BitVec 32) (rest : List Value) :
    (∀ memory addr m, f.inst.memories[memory]? = some addr → s.memories[addr.index]? = some m →
      (∀ value, f.At (.memoryFill memory) [.i32 len, .i32 value, .i32 dst] rest →
        f.PastesBytes s rest addr m (dst.toNat + len.toNat ≤ m.byteLength) dst.toNat len.toNat
          fun _ => .ofNat value.toNat) ∧
      (∀ data, f.At (.memoryInit data memory) [.i32 len, .i32 src, .i32 dst] rest →
        f.PastesBytes s rest addr m (src.toNat + len.toNat ≤ (f.dataContents s data).size ∧
            dst.toNat + len.toNat ≤ m.byteLength) dst.toNat len.toNat
          fun i => (f.dataContents s data).data[src.toNat + i]?.getD 0) ∧
      ∀ source srcAddr from_, f.inst.memories[source]? = some srcAddr →
        s.memories[srcAddr.index]? = some from_ →
        f.At (.memoryCopy memory source) [.i32 len, .i32 src, .i32 dst] rest →
        f.PastesBytes s rest addr m
          (src.toNat + len.toNat ≤ from_.byteLength ∧ dst.toNat + len.toNat ≤ m.byteLength)
          dst.toNat len.toNat fun i => from_.byteAt (src.toNat + i)) ∧
    ∀ table addr t, f.inst.tables[table]? = some addr → s.tables[addr.index]? = some t →
      (∀ value, f.At (.tableFill table) [.i32 len, value, .i32 dst] rest →
        f.PastesEntries s rest addr t (dst.toNat + len.toNat ≤ t.table.size) dst.toNat len.toNat
          fun _ => some (Ref.ofValue? value)) ∧
      (∀ elem, f.At (.tableInit elem table) [.i32 len, .i32 src, .i32 dst] rest →
        f.PastesEntries s rest addr t (src.toNat + len.toNat ≤ (f.elemEntries s elem).size ∧
            dst.toNat + len.toNat ≤ t.table.size) dst.toNat len.toNat
          fun i => (f.elemEntries s elem)[src.toNat + i]?) ∧
      ∀ source srcAddr from_, f.inst.tables[source]? = some srcAddr →
        s.tables[srcAddr.index]? = some from_ →
        f.At (.tableCopy table source) [.i32 len, .i32 src, .i32 dst] rest →
        f.PastesEntries s rest addr t
          (src.toNat + len.toNat ≤ from_.table.size ∧ dst.toNat + len.toNat ≤ t.table.size)
          dst.toNat len.toNat fun i => from_.table.entries[src.toNat + i]? := by
  have hrange : ∀ {op}, f.At op [.i32 len, .i32 src, .i32 dst] rest →
      popRange f.operands = (dst.toNat, src.toNat, len.toNat, rest) := by
    intro op h
    rw [h.operands]
    rfl
  refine ⟨fun memory addr m haddr hm => ⟨fun value h => pastes_memoryFill h haddr hm,
      fun data h => pastes_memoryInit h.code (hrange h) haddr hm,
      fun source srcAddr from_ hsrc hfrom h =>
        pastes_memoryCopy h.code (hrange h) haddr hm hsrc hfrom⟩,
    fun table addr t haddr ht => ⟨fun value h => pastes_tableFill h haddr ht,
      fun elem h => pastes_tableInit h.code (hrange h) haddr ht,
      fun source srcAddr from_ hsrc hfrom h =>
        pastes_tableCopy h.code (hrange h) haddr ht hsrc hfrom⟩⟩

/-- A copy to a range that overlaps its source. -/
theorem bulk_snapshot_overlapping : let f := onTable (.tableCopy 0 0) [.i32 2, .i32 0, .i32 1]
    f.PastesEntries .threeEntries [] ⟨0⟩ ⟨.funcRef, .three⟩ (0 + 2 ≤ 3 ∧ 1 + 2 ≤ 3) 1 2
        (fun i => Table.three.entries[0 + i]?) ∧
      ∃ f' s', f.step .threeEntries = .ok (.next f') s' ∧ s'.tables[0]?.map (·.table.entries) =
          some #[some (.func ⟨0⟩), some (.func ⟨0⟩), some (.func ⟨1⟩)] :=
  ⟨((bulk_snapshot _ .threeEntries 1 0 2 []).2 0 ⟨0⟩ ⟨.funcRef, .three⟩ rfl rfl).2.2 0 ⟨0⟩
    ⟨.funcRef, .three⟩ rfl rfl ⟨rfl, rfl⟩, _, _, rfl, rfl⟩

end Frame

end Wasm
