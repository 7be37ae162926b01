import Wasm.Proofs.Store.Instantiation

/-! # Active segments and instantiations that fail

Segments in front of the first that does not fit are written, and no other. -/

namespace Wasm

open List Store

variable {inst : Instance} {segments segments' : List ActiveSegment} {s s' s1 s2 : Store}
  {start : Nat}

/-- An active segment with its place and its contents. -/
inductive ActiveSegment where
  | elements (table start : Nat) (entries : Array (Option Ref))
  | data (memory start : Nat) (bytes : ByteArray)

namespace ActiveSegment

/-- How it traps when it does not fit. -/
def trap : ActiveSegment → Trap
  | elements _ _ _ => .tableOutOfBounds
  | data _ _ _ => .outOfBounds

/-- It lies in the table or the memory that it is for. -/
def Fits (inst : Instance) (s : Store) : ActiveSegment → Prop
  | elements table start entries => ∃ addr t, inst.tables[table]? = some addr ∧
      s.tables[addr.index]? = some t ∧ start + entries.size ≤ t.table.size
  | data memory start bytes => ∃ addr m, inst.memories[memory]? = some addr ∧
      s.memories[addr.index]? = some m ∧ start + bytes.size ≤ m.byteLength

def entryAt? (inst : Instance) (addr : TableAddr) (i : Nat) : ActiveSegment → Option (Option Ref)
  | elements table start entries =>
    if inst.tables[table]? = some addr ∧ start ≤ i then entries[i - start]? else none
  | data _ _ _ => none

def byte? (inst : Instance) (addr : MemoryAddr) (i : Nat) : ActiveSegment → Option UInt8
  | elements _ _ _ => none
  | data memory start bytes =>
    if inst.memories[memory]? = some addr ∧ start ≤ i then bytes.data[i - start]? else none

/-- What the last segment that has the entry puts there. -/
def lastEntryAt? (inst : Instance) (addr : TableAddr) (i : Nat) (segments : List ActiveSegment) :
    Option (Option Ref) :=
  segments.reverse.findSome? (entryAt? inst addr i)

/-- What the last segment that has the byte puts there. -/
def lastByte? (inst : Instance) (addr : MemoryAddr) (i : Nat) (segments : List ActiveSegment) :
    Option UInt8 :=
  segments.reverse.findSome? (byte? inst addr i)

theorem lastEntryAt?_append (addr : TableAddr) (i : Nat) (first last : List ActiveSegment) :
    lastEntryAt? inst addr i (first ++ last) =
      (lastEntryAt? inst addr i last).or (lastEntryAt? inst addr i first) := by
  rw [lastEntryAt?, reverse_append, findSome?_append]
  rfl

theorem lastByte?_append (addr : MemoryAddr) (i : Nat) (first last : List ActiveSegment) :
    lastByte? inst addr i (first ++ last) =
      (lastByte? inst addr i last).or (lastByte? inst addr i first) := by
  rw [lastByte?, reverse_append, findSome?_append]
  rfl

end ActiveSegment

/-- The active segment with its values worked out. -/
def ElementSegment.active? (eval : ConstExpr → Value) (segment : ElementSegment) :
    Option ActiveSegment :=
  match segment.mode with
  | .active table offset =>
    some (.elements table (eval offset).asI32.toNat
      (segment.items.map fun item => Ref.ofValue? (eval item)))
  | _ => none

/-- The active data segment with its place worked out. -/
def DataSegment.active? (eval : ConstExpr → Value) (segment : DataSegment) :
    Option ActiveSegment :=
  match segment.mode with
  | .active memory offset => some (.data memory (eval offset).asI32.toNat segment.bytes)
  | _ => none

def Module.activeSegments (m : Module) (eval : ConstExpr → Value) : List ActiveSegment :=
  m.elements.toList.filterMap (·.active? eval) ++ m.data.toList.filterMap (·.active? eval)

/-! ## What segments leave in the store -/

open ActiveSegment

/-- The objects are still there, with what segments put there. -/
structure Store.Filled (inst : Instance) (segments : List ActiveSegment) (s s' : Store) :
    Prop where
  tables : ∀ (addr : TableAddr) (t : TableInst), s.tables[addr.index]? = some t →
    ∃ table, s'.tables[addr.index]? = some { t with table } ∧ table.maximum = t.table.maximum ∧
      table.size = t.table.size ∧
      ∀ i, table.entries[i]? = (lastEntryAt? inst addr i segments).or t.table.entries[i]?
  memories : ∀ (addr : MemoryAddr) (m : Memory), s.memories[addr.index]? = some m →
    ∃ m', s'.memories[addr.index]? = some m' ∧ m'.maximum = m.maximum ∧ m'.pageCap = m.pageCap ∧
      m'.pageCount = m.pageCount ∧
      ∀ i, m'.byteAt i = (lastByte? inst addr i segments).getD (m.byteAt i)
  funcs : ∀ (addr : FuncAddr) (f : FuncInst), s.funcs[addr.index]? = some f →
    s'.funcs[addr.index]? = some f
  globals : ∀ (addr : GlobalAddr) (g : GlobalInst), s.globals[addr.index]? = some g →
    s'.globals[addr.index]? = some g
  elems : ∀ (addr : ElemAddr) (entries : Array (Option Ref)), addr ∉ inst.elems →
    s.elems[addr.index]? = some entries → s'.elems[addr.index]? = some entries
  data : ∀ (addr : DataAddr) (d : DataInst), addr ∉ inst.data →
    s.data[addr.index]? = some d → s'.data[addr.index]? = some d
  instances : ∀ (addr : InstanceAddr) (i : Option Instance), s.instances[addr.index]? = some i →
    s'.instances[addr.index]? = some i
  trace : s'.trace = s.trace

namespace Store.Filled

variable {s'' : Store}

theorem refl (inst : Instance) (s : Store) : s.Filled inst [] s where
  tables _ t h := ⟨t.table, h, rfl, rfl, fun _ => rfl⟩
  memories _ m h := ⟨m, h, rfl, rfl, rfl, fun _ => rfl⟩
  funcs _ _ h := h
  globals _ _ h := h
  elems _ _ _ h := h
  data _ _ _ h := h
  instances _ _ h := h
  trace := rfl

variable (h : s.Filled inst segments s')
include h

theorem trans (h' : s'.Filled inst segments' s'') : s.Filled inst (segments ++ segments') s'' where
  tables addr t ht := by
    obtain ⟨table, ht', hmax, hsize, hentries⟩ := h.tables addr t ht
    obtain ⟨table', ht'', hmax', hsize', hentries'⟩ := h'.tables addr _ ht'
    refine ⟨table', ht'', hmax'.trans hmax, hsize'.trans hsize, fun i => ?_⟩
    rw [hentries' i, hentries i, lastEntryAt?_append, Option.or_assoc]
  memories addr m hm := by
    obtain ⟨m', hm', hmax, hcap, hcount, hbytes⟩ := h.memories addr m hm
    obtain ⟨m'', hm'', hmax', hcap', hcount', hbytes'⟩ := h'.memories addr m' hm'
    refine ⟨m'', hm'', hmax'.trans hmax, hcap'.trans hcap, hcount'.trans hcount, fun i => ?_⟩
    rw [hbytes' i, hbytes i, lastByte?_append, Option.getD_or]
  funcs addr f hf := h'.funcs addr f (h.funcs addr f hf)
  globals addr g hg := h'.globals addr g (h.globals addr g hg)
  elems addr entries hmem he := h'.elems addr entries hmem (h.elems addr entries hmem he)
  data addr d hmem hd := h'.data addr d hmem (h.data addr d hmem hd)
  instances addr i hi := h'.instances addr i (h.instances addr i hi)
  trace := h'.trace.trans h.trace

theorem fits_iff (ha : s.Agrees s') (segment : ActiveSegment) :
    segment.Fits inst s' ↔ segment.Fits inst s := by
  cases segment with
  | elements table start entries =>
    constructor
    · rintro ⟨addr, t', haddr, ht', hle⟩
      have hlt : addr.index < s.tables.size := by
        have hsize := congrArg Array.size ha.tables
        rw [Array.size_map, Array.size_map] at hsize
        exact hsize ▸ (Array.getElem?_eq_some_iff.mp ht').1
      obtain ⟨table, ht, -, hsize, -⟩ := h.tables addr _ (Array.getElem?_eq_getElem hlt)
      rw [ht] at ht'
      cases ht'
      exact ⟨addr, _, haddr, Array.getElem?_eq_getElem hlt, hsize ▸ hle⟩
    · rintro ⟨addr, t, haddr, ht, hle⟩
      obtain ⟨table, ht', -, hsize, -⟩ := h.tables addr t ht
      exact ⟨addr, _, haddr, ht', hsize.symm ▸ hle⟩
  | data memory start bytes =>
    have hlength : ∀ {m m' : Memory}, m'.pageCount = m.pageCount → m'.byteLength = m.byteLength :=
      fun hcount => congrArg (· * pageSize) hcount
    constructor
    · rintro ⟨addr, m', haddr, hm', hle⟩
      have hlt : addr.index < s.memories.size :=
        ha.memories ▸ (Array.getElem?_eq_some_iff.mp hm').1
      obtain ⟨m'', hm, -, -, hcount, -⟩ := h.memories addr _ (Array.getElem?_eq_getElem hlt)
      rw [hm] at hm'
      cases hm'
      exact ⟨addr, _, haddr, Array.getElem?_eq_getElem hlt, hlength hcount ▸ hle⟩
    · rintro ⟨addr, m, haddr, hm, hle⟩
      obtain ⟨m', hm', -, -, hcount, -⟩ := h.memories addr m hm
      exact ⟨addr, m', haddr, hm', (hlength hcount).symm ▸ hle⟩

theorem exists_global
    (hglobals : ∀ addr ∈ inst.importedGlobals, ∃ g, s.globals[addr.index]? = some g) :
    ∀ addr ∈ inst.importedGlobals, ∃ g, s'.globals[addr.index]? = some g :=
  fun addr haddr => (hglobals addr haddr).imp fun g hg => h.globals addr g hg

theorem eval_eq (hglobals : ∀ addr ∈ inst.importedGlobals, ∃ g, s.globals[addr.index]? = some g)
    (expr : ConstExpr) :
    expr.eval s' inst.funcs inst.importedGlobals = expr.eval s inst.funcs inst.importedGlobals := by
  cases expr with
  | globalGet index =>
    rw [ConstExpr.eval, ConstExpr.eval]
    cases haddr : inst.importedGlobals[index]? with
    | none => rfl
    | some addr =>
      obtain ⟨g, hg⟩ := hglobals addr (Array.mem_of_getElem? haddr)
      simp only [hg, h.globals addr g hg]
  | _ => rfl

end Store.Filled

namespace Store

theorem filled_dropElem {addr : ElemAddr} (h : addr ∈ inst.elems) :
    s.Filled inst [] (s.dropElem addr) :=
  { Filled.refl inst s with
    elems := by
      intro addr' entries hmem he
      have hne : addr.index ≠ addr'.index := fun heq =>
        hmem (congrArg (· ∈ inst.elems) (congrArg ElemAddr.mk heq) ▸ h)
      simp only [dropElem, getElem?_setIfInBounds_some he, if_neg hne] }

theorem filled_dropData {addr : DataAddr} (h : addr ∈ inst.data) :
    s.Filled inst [] (s.dropData addr) :=
  { Filled.refl inst s with
    data := by
      intro addr' d hmem hd
      have hne : addr.index ≠ addr'.index := fun heq =>
        hmem (congrArg (· ∈ inst.data) (congrArg DataAddr.mk heq) ▸ h)
      simp only [dropData, Array.getElem?_modify, if_neg hne, hd] }

theorem filled_elements {table : Nat} {entries : Array (Option Ref)} {addr : TableAddr}
    {t : TableInst} (haddr : inst.tables[table]? = some addr)
    (ht : s.tables[addr.index]? = some t) (hfits : start + entries.size ≤ t.table.size) :
    s.Filled inst [.elements table start entries]
      { s with
        tables := s.tables.setIfInBounds addr.index
          { t with table := t.table.overwrite start entries.toList } } :=
  { Filled.refl inst s with
    tables := by
      intro addr' t' ht'
      rw [getElem?_setIfInBounds_some ht']
      by_cases heq : addr = addr'
      · subst heq
        rw [ht] at ht'
        cases ht'
        refine ⟨_, if_pos rfl, t.table.maximum_overwrite start _,
          t.table.size_overwrite start _, ?_⟩
        intro i
        rw [t.table.getElem?_overwrite hfits]
        simp only [lastEntryAt?, reverse_singleton, findSome?_singleton, entryAt?, haddr,
          true_and, Array.getElem?_toList]
        split
        · rfl
        · rfl
      · have hne : addr.index ≠ addr'.index := fun h => heq (congrArg TableAddr.mk h)
        refine ⟨t'.table, if_neg hne, rfl, rfl, fun i => ?_⟩
        have hother : ¬ (some addr = some addr' ∧ start ≤ i) := fun h => heq (Option.some.inj h.1)
        simp only [lastEntryAt?, reverse_singleton, findSome?_singleton, entryAt?, haddr,
          if_neg hother, Option.none_or] }

theorem filled_data {memory : Nat} {bytes : ByteArray} {addr : MemoryAddr} {m : Memory}
    (haddr : inst.memories[memory]? = some addr) (hm : s.memories[addr.index]? = some m)
    (hfits : start + bytes.size ≤ m.byteLength) :
    s.Filled inst [.data memory start bytes]
      { s with
        memories := s.memories.setIfInBounds addr.index (m.overwrite start bytes.data.toList) } :=
  { Filled.refl inst s with
    memories := by
      intro addr' m' hm'
      rw [getElem?_setIfInBounds_some hm']
      by_cases heq : addr = addr'
      · subst heq
        rw [hm] at hm'
        cases hm'
        refine ⟨_, if_pos rfl, m.maximum_overwrite start _, m.pageCap_overwrite start _,
          m.pageCount_overwrite start _, ?_⟩
        intro i
        rw [m.byteAt_overwrite hfits]
        simp only [lastByte?, reverse_singleton, findSome?_singleton, byte?, haddr,
          true_and, Array.getElem?_toList]
        split
        · rfl
        · rfl
      · have hne : addr.index ≠ addr'.index := fun h => heq (congrArg MemoryAddr.mk h)
        refine ⟨m', if_neg hne, rfl, rfl, rfl, fun i => ?_⟩
        have hother : ¬ (some addr = some addr' ∧ start ≤ i) := fun h => heq (Option.some.inj h.1)
        simp only [lastByte?, reverse_singleton, findSome?_singleton, byte?, haddr,
          if_neg hother, Option.getD_none] }

end Store

/-! ## Applying segments -/

theorem Table.init_whole (t : Table Ref) (start : Nat) (entries : Array (Option Ref)) :
    Table.init start entries 0 entries.size t =
      if start + entries.size ≤ t.size then .ok () (t.overwrite start entries.toList)
      else .error .tableOutOfBounds t := by
  simp only [Table.init, Table.guarded, Table.inBounds, Nat.zero_add, Nat.le_refl, if_true,
    Array.extract_size, decide_eq_true_eq]

theorem Memory.init_whole (m : Memory) (start : Nat) (bytes : ByteArray) :
    Memory.init start bytes 0 bytes.size m =
      if start + bytes.size ≤ m.byteLength then .ok () (m.overwrite start bytes.data.toList)
      else .error .outOfBounds m := by
  simp only [Memory.init, Memory.guarded, Memory.inBounds, Nat.zero_add, Nat.le_refl, if_true,
    ByteArray.extract_zero_size, toList_eq_data, decide_eq_true_eq]

def Loads (inst : Instance) (segments : List ActiveSegment) (s : Store) :
    EStateM.Result Trap Store Unit → Prop
  | .ok () s' => (∀ segment ∈ segments, segment.Fits inst s) ∧ s.Filled inst segments s' ∧
      s.Agrees s'
  | .error t s' => ∃ front segment back, segments = front ++ segment :: back ∧
      (∀ fitting ∈ front, fitting.Fits inst s) ∧ ¬ segment.Fits inst s ∧ t = segment.trap ∧
      s.Filled inst front s'

namespace Instance

variable {eval : ConstExpr → Value}

variable {segment : ElementSegment} {addr : ElemAddr} {α β : Type}

theorem loads_nil (inst : Instance) (h : s.Filled inst [] s') (ha : s.Agrees s') :
    Loads inst [] s (.ok () s') :=
  ⟨by simp, h, ha⟩

theorem loads_unfit {segment : ActiveSegment} (h : ¬ segment.Fits inst s) :
    Loads inst [segment] s (.error segment.trap s) :=
  ⟨[], segment, [], rfl, by simp, h, rfl, .refl inst s⟩

theorem loads_bind {x y : StoreM Unit} (hx : Loads inst segments s (x s))
    (hy : ∀ s', x s = .ok () s' → s.Filled inst segments s' → Loads inst segments' s' (y s')) :
    Loads inst (segments ++ segments') s ((x >>= fun _ => y) s) := by
  cases hr : x s with
  | ok u s' =>
    rw [hr] at hx
    obtain ⟨hfit, hfilled, ha⟩ := hx
    have hy' := hy s' hr hfilled
    have hiff := hfilled.fits_iff ha
    rw [bind_of_ok hr]
    cases hr' : y s' with
    | ok u' s'' =>
      rw [hr'] at hy'
      obtain ⟨hfit', hfilled', ha'⟩ := hy'
      refine ⟨?_, hfilled.trans hfilled', ha.trans ha'⟩
      intro segment hmem
      rcases mem_append.mp hmem with hmem | hmem
      · exact hfit segment hmem
      · exact (hiff segment).mp (hfit' segment hmem)
    | error t s'' =>
      rw [hr'] at hy'
      obtain ⟨front, segment, back, rfl, hfit', hunfit, htrap, hfilled'⟩ := hy'
      refine ⟨segments ++ front, segment, back, by rw [append_assoc], ?_,
        fun h => hunfit ((hiff segment).mpr h), htrap, hfilled.trans hfilled'⟩
      intro fitting hmem
      rcases mem_append.mp hmem with hmem | hmem
      · exact hfit fitting hmem
      · exact (hiff fitting).mp (hfit' fitting hmem)
  | error t s' =>
    rw [hr] at hx
    obtain ⟨front, segment, back, rfl, hfit, hunfit, htrap, hfilled⟩ := hx
    rw [bind_of_error hr]
    exact ⟨front, segment, back ++ segments', by simp, hfit, hunfit, htrap, hfilled⟩

theorem loads_dropping {segment : ActiveSegment} (hfit : segment.Fits inst s)
    (hfilled : s.Filled inst [segment] s1) (hdrop : s1.Filled inst [] s2) (ha : s.Agrees s2) :
    Loads inst [segment] s (.ok () s2) :=
  ⟨by simpa using hfit, by simpa using hfilled.trans hdrop, ha⟩

theorem loads_elements (table start : Nat) (entries : Array (Option Ref))
    (hmem : addr ∈ inst.elems) :
    Loads inst [.elements table start entries] s (match inst.tables[table]? with
      | none => .error .tableOutOfBounds s
      | some tableAddr =>
        (Store.onTable tableAddr (Table.init start entries 0 entries.size) >>=
          fun _ => modify (·.dropElem addr)) s) := by
  by_cases hfits : (ActiveSegment.elements table start entries).Fits inst s
  · obtain ⟨tableAddr, t, htable, ht, hle⟩ := hfits
    have hop : Store.onTable tableAddr (Table.init start entries 0 entries.size) s = .ok ()
        { s with
          tables := s.tables.setIfInBounds tableAddr.index
            { t with table := t.table.overwrite start entries.toList } } := by
      simp only [onTable_eq, ht, Table.init_whole, if_pos hle]
    rw [htable]
    dsimp only
    rw [bind_of_ok hop]
    exact loads_dropping ⟨tableAddr, t, htable, ht, hle⟩ (Store.filled_elements htable ht hle)
      (Store.filled_dropElem hmem)
      (((keeps_onTable tableAddr _).ok hop).trans (agrees_dropElem _ addr))
  · cases htable : inst.tables[table]? with
    | none => exact loads_unfit hfits
    | some tableAddr =>
      have hop : Store.onTable tableAddr (Table.init start entries 0 entries.size) s =
          .error .tableOutOfBounds s := by
        cases ht : s.tables[tableAddr.index]? with
        | none => simp only [onTable_eq, ht]
        | some t =>
          have hle : ¬ start + entries.size ≤ t.table.size :=
            fun hle => hfits ⟨tableAddr, t, htable, ht, hle⟩
          simp only [onTable_eq, ht, Table.init_whole, if_neg hle, setIfInBounds_getElem? ht]
      dsimp only
      rw [bind_of_error hop]
      exact loads_unfit hfits

theorem loads_data (memory start : Nat) (bytes : ByteArray) {addr : DataAddr}
    (hmem : addr ∈ inst.data) :
    Loads inst [.data memory start bytes] s (match inst.memories[memory]? with
      | none => .error .outOfBounds s
      | some memoryAddr =>
        (Store.onMemory memoryAddr (Memory.init start bytes 0 bytes.size) >>=
          fun _ => modify (·.dropData addr)) s) := by
  by_cases hfits : (ActiveSegment.data memory start bytes).Fits inst s
  · obtain ⟨memoryAddr, m, hmemory, hm, hle⟩ := hfits
    have hop : Store.onMemory memoryAddr (Memory.init start bytes 0 bytes.size) s = .ok ()
        { s with
          memories := s.memories.setIfInBounds memoryAddr.index
            (m.overwrite start bytes.data.toList) } := by
      simp only [onMemory_eq, hm, Memory.init_whole, if_pos hle]
    rw [hmemory]
    dsimp only
    rw [bind_of_ok hop]
    exact loads_dropping ⟨memoryAddr, m, hmemory, hm, hle⟩ (Store.filled_data hmemory hm hle)
      (Store.filled_dropData hmem)
      (((keeps_onMemory memoryAddr _).ok hop).trans (agrees_dropData _ addr))
  · cases hmemory : inst.memories[memory]? with
    | none => exact loads_unfit hfits
    | some memoryAddr =>
      have hop : Store.onMemory memoryAddr (Memory.init start bytes 0 bytes.size) s =
          .error .outOfBounds s := by
        cases hm : s.memories[memoryAddr.index]? with
        | none => simp only [onMemory_eq, hm]
        | some m =>
          have hle : ¬ start + bytes.size ≤ m.byteLength :=
            fun hle => hfits ⟨memoryAddr, m, hmemory, hm, hle⟩
          simp only [onMemory_eq, hm, Memory.init_whole, if_neg hle, setIfInBounds_getElem? hm]
      dsimp only
      rw [bind_of_error hop]
      exact loads_unfit hfits

theorem loads_applyElement (hmem : addr ∈ inst.elems)
    (helem : s.elems[addr.index]? = some (segment.items.map fun item => Ref.ofValue? (eval item)))
    (heval : ∀ expr : ConstExpr, expr.eval s inst.funcs inst.importedGlobals = eval expr) :
    Loads inst (segment.active? eval).toList s (inst.applyElement segment addr s) := by
  simp only [ElementSegment.active?, applyElement]
  cases hmode : segment.mode with
  | passive => exact loads_nil inst (.refl inst s) (.refl s)
  | declarative => exact loads_nil inst (Store.filled_dropElem hmem) (s.agrees_dropElem addr)
  | active table offset =>
    have hloads := loads_elements (s := s) table (eval offset).asI32.toNat
      (segment.items.map fun item => Ref.ofValue? (eval item)) hmem
    dsimp only
    rw [bind_of_ok (get_apply s)]
    simp only [helem, Option.getD_some, Instance.offset, heval]
    cases htable : inst.tables[table]? with
    | none | some tableAddr => rwa [htable] at hloads

theorem loads_applyData {segment : DataSegment} {addr : DataAddr} (hmem : addr ∈ inst.data)
    (heval : ∀ expr : ConstExpr, expr.eval s inst.funcs inst.importedGlobals = eval expr) :
    Loads inst (segment.active? eval).toList s (inst.applyData segment addr s) := by
  simp only [DataSegment.active?, applyData]
  cases hmode : segment.mode with
  | passive | declarative => exact loads_nil inst (.refl inst s) (.refl s)
  | active memory offset =>
    have hloads := loads_data (s := s) memory (eval offset).asI32.toNat segment.bytes hmem
    dsimp only
    cases hmemory : inst.memories[memory]? with
    | none => rwa [hmemory] at hloads
    | some memoryAddr =>
      rw [hmemory] at hloads
      dsimp only
      rw [bind_of_ok (get_apply s)]
      simp only [Instance.offset, heval]
      exact hloads

theorem applyElement_eq_ok (h : inst.applyElement segment addr s = .ok () s') :
    ∃ s1 : Store, s1.elems = s.elems ∧
      s1.data = s.data ∧ s' = if segment.mode = .passive then s1 else s1.dropElem addr := by
  rw [applyElement] at h
  cases hmode : segment.mode with
  | passive | declarative =>
    rw [hmode] at h
    cases h
    exact ⟨s, rfl, rfl, rfl⟩
  | active table offset =>
    rw [hmode] at h
    dsimp only at h
    rw [bind_of_ok (get_apply s)] at h
    cases htable : inst.tables[table]? with
    | none =>
      rw [htable] at h
      cases h
    | some tableAddr =>
      rw [htable] at h
      obtain ⟨_, s1, hop, hmodify⟩ := bind_eq_ok.mp h
      cases hmodify
      have hsame : s1.elems = s.elems ∧ s1.data = s.data :=
        (settles_onTable (R := fun s s' => s'.elems = s.elems ∧ s'.data = s.data)
          (Table.settles_init _ _ _ _) fun _ _ => ⟨rfl, rfl⟩).ok hop
      exact ⟨s1, hsame.1, hsame.2, rfl⟩

theorem elems_applyElement (h : inst.applyElement segment addr s = .ok () s') {i : Nat}
    (hi : addr.index ≠ i) : s'.elems[i]? = s.elems[i]? := by
  obtain ⟨s1, hsame, -, rfl⟩ := applyElement_eq_ok h
  split
  · rw [hsame]
  · rw [Store.dropElem, hsame, Array.getElem?_setIfInBounds_ne hi]

theorem filterMap_cons_eq (f : α → Option β) (a : α) (as : List α) :
    (a :: as).filterMap f = (f a).toList ++ as.filterMap f := by
  rw [filterMap_cons]
  cases f a with
  | none | some b => rfl

theorem loads_applyAll {apply : α → β → StoreM Unit} {active : α → Option ActiveSegment}
    {P : Store → α × β → Prop} {pairs : List (α × β)}
    (hload : ∀ {s : Store} {pair}, P s pair →
      (∀ expr : ConstExpr, expr.eval s inst.funcs inst.importedGlobals = eval expr) →
      Loads inst (active pair.1).toList s (apply pair.1 pair.2 s))
    (hstays : pairs.Pairwise fun pair pair' => ∀ {s s' : Store}, apply pair.1 pair.2 s = .ok () s' →
      P s pair' → P s' pair')
    (hglobals : ∀ addr ∈ inst.importedGlobals, ∃ g, s.globals[addr.index]? = some g)
    (heval : ∀ expr : ConstExpr, expr.eval s inst.funcs inst.importedGlobals = eval expr)
    (hwhole : ∀ pair ∈ pairs, P s pair) :
    Loads inst (pairs.filterMap fun pair => active pair.1) s (applyAll apply pairs s) := by
  induction pairs generalizing s with
  | nil => exact loads_nil inst (.refl inst s) (.refl s)
  | cons pair pairs ih =>
    obtain ⟨hhead, htail⟩ := pairwise_cons.mp hstays
    rw [filterMap_cons_eq, applyAll]
    refine loads_bind (hload (hwhole _ mem_cons_self) heval) fun s' happly hfilled =>
      ih htail (hfilled.exists_global hglobals) (fun expr => ?_)
        fun pair hp => hhead pair hp happly (hwhole pair (.tail _ hp))
    rw [hfilled.eval_eq hglobals, heval]

end Instance

/-! ## A new instance and its segments -/

namespace Store

variable {s0 : Store} {m : Module} {bindings : List Binding} {limit : Nat} {addr : InstanceAddr}

theorem pairwise_zip_freshAddrs {α β : Type} {mk : Nat → β} (index : β → Nat)
    (hmk : ∀ n, index (mk n) = n) (start : Nat) (xs : Array α) :
    (xs.toList.zip (freshAddrs mk start xs.size).toList).Pairwise
      fun pair pair' => index pair.2 ≠ index pair'.2 := by
  have hcounted : (freshAddrs mk start xs.size).toList.Pairwise fun b b' => index b ≠ index b' := by
    rw [freshAddrs, toList_toArray, pairwise_map]
    refine (pairwise_lt_range' 1).imp fun hlt => ?_
    rw [hmk, hmk]
    exact Nat.ne_of_lt hlt
  have hlen : (freshAddrs mk start xs.size).toList.length ≤ xs.toList.length := by
    simp [freshAddrs]
  rwa [← map_snd_zip hlen, pairwise_map] at hcounted

/-- What is known of an instance that was just made. -/
structure Allocated (s : Store) (m : Module) (inst : Instance) (addr : InstanceAddr)
    (s0 : Store) : Prop where
  module : inst.module = m
  addr : addr = ⟨s.instances.size⟩
  filled : s.Filled inst [] s0
  globals : ∀ a ∈ inst.importedGlobals, ∃ g, s.globals[a.index]? = some g
  elems : inst.elems = freshAddrs ElemAddr.mk s.elems.size m.elements.size
  data : inst.data = freshAddrs DataAddr.mk s.data.size m.data.size
  entries : ∀ (i : Nat) (segment : ElementSegment), m.elements[i]? = some segment →
    s0.elems[s.elems.size + i]? = some (segment.items.map fun item =>
      Ref.ofValue? (item.eval s inst.funcs inst.importedGlobals))

theorem allocated_of_allocate (h : s.allocate m bindings limit = .ok (inst, addr, s0)) :
    Allocated s m inst addr s0 := by
  obtain ⟨r, tables, memories, hr, -, -, hresult⟩ := allocate_eq_addInstance h
  rw [addInstance_eq] at hresult
  cases hresult
  refine ⟨rfl, rfl, ?_, ?_, rfl, rfl, ?_⟩
  · refine
      { tables := fun _ t ht => ⟨t.table, getElem?_append_some ht, rfl, rfl, fun _ => rfl⟩
        memories := fun _ m hm => ⟨m, getElem?_append_some hm, rfl, rfl, rfl, fun _ => rfl⟩
        funcs := fun _ _ hf => getElem?_append_some hf
        globals := fun _ _ hg => getElem?_append_some hg
        elems := fun _ _ _ he => getElem?_append_some he
        data := fun _ _ _ hd => getElem?_append_some hd
        instances := ?_
        trace := rfl }
    intro a i hi
    have hlt := (Array.getElem?_eq_some_iff.mp hi).1
    rw [Array.getElem?_push, if_neg (Nat.ne_of_lt hlt), hi]
  · -- an import was resolved to a global of the store
    intro a ha
    obtain ⟨i, hi⟩ := mem_iff_getElem?.mp (Array.mem_toList_iff.mpr ha)
    obtain ⟨imp, -, hgives⟩ := exists_of_forall₂ hr.globals.flip hi
    obtain ⟨type, g, -, hg, -⟩ := hgives.global
    exact ⟨g, hg⟩
  · intro i segment hsegment
    rw [getElem?_append_add, getElem?_map, Array.getElem?_toList, hsegment]
    rfl

theorem Allocated.loads_applySegments (h : Allocated s m inst addr s0) :
    Loads inst (m.activeSegments (·.eval s inst.funcs inst.importedGlobals)) s0
      (inst.applySegments s0) := by
  have hglobals := h.filled.exists_global h.globals
  have heval := h.filled.eval_eq h.globals
  have helements : m.elements.toList.length ≤ inst.elems.toList.length := by
    simp [h.elems, freshAddrs]
  have hdata : m.data.toList.length ≤ inst.data.toList.length := by
    simp [h.data, freshAddrs]
  have hsegments : m.activeSegments (·.eval s inst.funcs inst.importedGlobals) =
      ((m.elements.toList.zip inst.elems.toList).filterMap fun pair =>
        pair.1.active? (·.eval s inst.funcs inst.importedGlobals)) ++
      (m.data.toList.zip inst.data.toList).filterMap fun pair =>
        pair.1.active? (·.eval s inst.funcs inst.importedGlobals) := by
    rw [Module.activeSegments, ← map_fst_zip helements, filterMap_map,
      map_fst_zip helements, ← map_fst_zip hdata, filterMap_map,
      map_fst_zip hdata]
    rfl
  rw [hsegments, Instance.applySegments, h.module]
  refine Instance.loads_bind (Instance.loads_applyAll (P := fun t pair => pair.2 ∈ inst.elems ∧
    t.elems[pair.2.index]? = some (pair.1.items.map fun item =>
      Ref.ofValue? (item.eval s inst.funcs inst.importedGlobals)))
    (fun hP heval => Instance.loads_applyElement hP.1 hP.2 heval) ?_ hglobals heval ?_) ?_
  · rw [h.elems]
    exact (pairwise_zip_freshAddrs ElemAddr.index (fun _ => rfl) _ _).imp fun hne _ _ happly hP =>
      ⟨hP.1, (Instance.elems_applyElement happly hne).trans hP.2⟩
  · intro pair hp
    obtain ⟨i, hi⟩ := mem_iff_getElem?.mp hp
    obtain ⟨hsegment, haddr⟩ := getElem?_zip_eq_some.mp hi
    rw [Array.getElem?_toList] at hsegment haddr
    refine ⟨Array.mem_of_getElem? haddr, ?_⟩
    rw [h.elems, getElem?_freshAddrs _ _ (Array.getElem?_eq_some_iff.mp hsegment).1] at haddr
    rw [← Option.some.inj haddr]
    exact h.entries i pair.1 hsegment
  · intro s1 happly hfilled
    refine Instance.loads_applyAll (P := fun _ pair => pair.2 ∈ inst.data)
      (fun hP heval => Instance.loads_applyData hP heval)
      (List.pairwise_of_forall fun _ _ _ _ _ hP => hP) (hfilled.exists_global hglobals)
        (fun expr => ?_)
      fun pair hp => Array.mem_toList_iff.mp (of_mem_zip hp).2
    rw [hfilled.eval_eq hglobals, heval]

theorem resolve_ne_trap (s : Store) (types : Array FuncType) (bindings : List Binding)
    (imports : List Import) (r : Resolved) (t : Trap) :
    s.resolve types bindings imports r ≠ .error (.trap t) := by
  induction imports generalizing r with
  | nil => intro h; cases h
  | cons i imports ih =>
    rw [resolve]
    split
    · intro h; cases h
    · split
      · exact ih _
      · intro h; cases h

theorem allocate_ne_trap (t : Trap) : s.allocate m bindings limit ≠ .error (.trap t) := by
  rw [allocate]
  cases hr : s.resolve m.spaces.types bindings m.imports.toList .empty with
  | error e =>
    intro h
    cases h
    exact s.resolve_ne_trap _ _ _ _ t hr
  | ok r =>
    split
    · intro h; cases h
    · intro h; cases h
    · intro h; cases h

theorem runStart_eq_trap {fuel : Nat} {t : Trap} (h : inst.runStart fuel s1 = (.trap t, s2)) :
    ∃ start func, inst.module.start = some start ∧ inst.funcs[start]? = some func ∧
      s1.invoke fuel func [] = (.trap t, s2) := by
  rw [Instance.runStart] at h
  split at h
  · cases h
  · next start hstart =>
      split at h
      · cases h
      · next func hfunc => exact ⟨start, func, hstart, hfunc, h⟩

theorem Filled.release (h : s.Filled inst segments s') :
    s.Filled inst segments (s'.release ⟨s.instances.size⟩) :=
  { h with
    instances := by
      intro a i hi
      have hlt := (Array.getElem?_eq_some_iff.mp hi).1
      rw [Store.release, Array.getElem?_setIfInBounds, if_neg (Nat.ne_of_gt hlt)]
      exact h.instances a i hi }

/-- **What a failed instantiation leaves behind**: the store as it was if imports do not fit; the
    effect of the segments in front of the one that does not; that of all segments and the start
    function if it traps. -/
theorem instantiate_failed {fuel : Nat} {s s' : Store} {m : Module} {bindings : List Binding}
    {limit : Nat} {e : InstantiationError}
    (h : s.instantiate fuel m bindings limit = (.failed e, s')) :
    ((∀ t, e ≠ .trap t) → s' = s) ∧
    ∀ t, e = .trap t → ∃ inst addr s0 segments, s.allocate m bindings limit = .ok (inst, addr, s0) ∧
      segments = m.activeSegments (·.eval s inst.funcs inst.importedGlobals) ∧
      ((∃ front segment back, segments = front ++ segment :: back ∧
          (∀ fitting ∈ front, fitting.Fits inst s0) ∧ ¬ segment.Fits inst s0 ∧
          t = segment.trap ∧ s.Filled inst front s') ∨
        (∀ segment ∈ segments, segment.Fits inst s0) ∧
          ∃ s1 s2 start func, s.Filled inst segments s1 ∧ m.start = some start ∧
            inst.funcs[start]? = some func ∧ s1.invoke fuel func [] = (.trap t, s2) ∧
            s' = s2.release addr) := by
  rw [instantiate] at h
  split at h
  · -- nothing was made
    next e' hallocate =>
      cases h
      refine ⟨fun _ => rfl, ?_⟩
      rintro t rfl
      exact absurd hallocate (allocate_ne_trap t)
  · next inst addr s0 hallocate =>
      have hnew := allocated_of_allocate hallocate
      have hloads := hnew.loads_applySegments
      rw [Store.start] at h
      cases happly : inst.applySegments s0 with
      | error t s1 =>
        rw [happly] at h hloads
        cases h
        refine ⟨fun hne => absurd rfl (hne t), ?_⟩
        rintro t' ht
        cases ht
        obtain ⟨front, segment, back, hsegments, hfit, hunfit, ht, hfilled⟩ := hloads
        refine ⟨inst, addr, s0, _, hallocate, rfl, .inl ⟨front, segment, back, hsegments, hfit,
          hunfit, ht, ?_⟩⟩
        rw [hnew.addr]
        exact (hnew.filled.trans hfilled).release
      | ok u s1 =>
        rw [happly] at h hloads
        obtain ⟨hfit, hfilled, -⟩ := hloads
        dsimp only at h
        cases hrun : inst.runStart fuel s1 with
        | mk outcome s2 =>
          rw [hrun] at h
          cases outcome with
          | results values | outOfFuel => cases h
          | trap t =>
            cases h
            refine ⟨fun hne => absurd rfl (hne t), ?_⟩
            rintro t' ht
            cases ht
            obtain ⟨start, func, hstart, hfunc, hinvoke⟩ := runStart_eq_trap hrun
            exact ⟨inst, addr, s0, _, hallocate, rfl, .inr ⟨hfit, s1, s2, start, func,
              hnew.filled.trans hfilled, hnew.module ▸ hstart, hfunc, hinvoke, rfl⟩⟩

def twoSegments : ByteArray :=
  ⟨#[0x00, 0x61, 0x73, 0x6D, 0x01, 0x00, 0x00, 0x00, 0x01, 0x04, 0x01, 0x60, 0x00, 0x00,
    0x02, 0x09, 0x01, 0x01, 0x6D, 0x01, 0x74, 0x01, 0x70, 0x00, 0x01,
    0x03, 0x02, 0x01, 0x00,
    0x09, 0x0D, 0x02, 0x00, 0x41, 0x00, 0x0B, 0x01, 0x00, 0x00, 0x41, 0x01, 0x0B, 0x01, 0x00,
    0x0A, 0x04, 0x01, 0x02, 0x00, 0x0B]⟩

def oneEntry : Store := { Store.empty with tables := #[⟨.funcRef, ⟨#[none], none⟩⟩] }

/-- The first segment is written although the second does not fit. -/
theorem instantiate_twoSegments : ∃ m s', Module.compile .standard twoSegments = .ok m ∧
    oneEntry.instantiate 0 m [⟨"m", "t", .table ⟨0⟩⟩] 16 = (.failed (.trap .tableOutOfBounds), s') ∧
    ∃ inst addr s0 front segment back,
      oneEntry.allocate m [⟨"m", "t", .table ⟨0⟩⟩] 16 = .ok (inst, addr, s0) ∧
      m.activeSegments (·.eval oneEntry inst.funcs inst.importedGlobals) =
        front ++ segment :: back ∧
      ¬ segment.Fits inst s0 ∧ oneEntry.Filled inst front s' := by
  have hrun : ∃ m, Module.compile .standard twoSegments = .ok m ∧
      ∃ s', oneEntry.instantiate 0 m [⟨"m", "t", .table ⟨0⟩⟩] 16 =
        (.failed (.trap .tableOutOfBounds), s') ∧ m.start = none := by
    decide +kernel
  obtain ⟨m, hm, s', hinstantiate, hstart⟩ := hrun
  obtain ⟨inst, addr, s0, _, hallocate, rfl, hcases⟩ := (instantiate_failed hinstantiate).2 _ rfl
  rcases hcases with ⟨front, segment, back, hsegments, -, hunfit, -, hfilled⟩ |
    ⟨-, s1, s2, start, func, -, hstart', -⟩
  · exact ⟨m, s', hm, hinstantiate, inst, addr, s0, front, segment, back, hallocate, hsegments,
      hunfit, hfilled⟩
  · cases hstart.symm.trans hstart'

end Store

end Wasm
