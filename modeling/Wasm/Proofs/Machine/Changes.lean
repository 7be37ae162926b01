import Wasm.Proofs.Binary.Reading
import Wasm.Proofs.Machine.Frames
import Wasm.Proofs.Store.Overwriting

/-! # What an operation does to the store

It changes at most one object, behind everything that can trap (`BasicOp.exec_acts`). -/

namespace Wasm

variable {P : Prop} {len : Nat} {op : Op Nat} {addr : MemoryAddr}

/-! ## Computations that change their state or fail -/

/-- A computation that fails leaves its state as it was. -/
def Restores {ε σ α : Type} (x : EStateM ε σ α) : Prop :=
  ∀ s e s', x s = .error e s' → s' = s

def Settles {ε σ α : Type} (R : σ → σ → Prop) (x : EStateM ε σ α) : Prop :=
  ∀ s, match x s with
    | .ok _ s' => R s s'
    | .error _ s' => s' = s

abbrev Inspects {ε σ α : Type} (x : EStateM ε σ α) : Prop := Settles (fun s s' => s' = s) x

namespace Settles

variable {ε σ α β : Type} {R : σ → σ → Prop}

theorem ok {x : EStateM ε σ α} (h : Settles R x) {s s' : σ} {a : α} (hx : x s = .ok a s') :
    R s s' := by
  have := h s
  rwa [hx] at this

theorem restores {x : EStateM ε σ α} (h : Settles R x) : Restores x := by
  intro s e s' hx
  have := h s
  rwa [hx] at this

theorem throw (e : ε) : Settles R (MonadExcept.throw e : EStateM ε σ α) := fun _ => rfl

theorem of_inspects {x : EStateM ε σ α} (h : Inspects x) (hR : ∀ s, R s s) : Settles R x := by
  intro s
  cases hx : x s with
  | ok a s' => cases h.ok hx; exact hR s
  | error e s' => exact h.restores s e s' hx

theorem get : Inspects (MonadState.get : EStateM ε σ σ) := fun _ => rfl

theorem keeps {x : EStateM ε Store α} (h : Inspects x) : Keeps Store.Agrees x := by
  intro s
  cases hx : x s with
  | ok a s' => cases h.ok hx; exact .refl s
  | error e s' => cases h.restores s e s' hx; exact .refl s

theorem reading {x : EStateM ε σ α} {f : α → EStateM ε σ β} (hx : Inspects x)
    (hf : ∀ a, Settles R (f a)) : Settles R (x >>= f) := by
  intro s
  cases hr : x s with
  | ok a s1 =>
    rw [bind_of_ok hr, hx.ok hr]
    exact hf a s
  | error e s1 =>
    rw [bind_of_error hr]
    exact hx.restores s e s1 hr

theorem yielding {x : EStateM ε σ α} (hx : Settles R x) (f : α → β) :
    Settles R (x >>= fun a => Pure.pure (f a)) := by
  intro s
  cases hr : x s with
  | ok a s1 =>
    rw [bind_of_ok hr]
    exact hx.ok hr
  | error e s1 =>
    rw [bind_of_error hr]
    exact hx.restores s e s1 hr

theorem ite [Decidable P] {x y : EStateM ε σ α} (hx : Settles R x) (hy : Settles R y) :
    Settles R (if P then x else y) := by
  split
  · exact hx
  · exact hy

theorem lift (x : Except Trap α) : Inspects (Frame.lift x) := by
  cases x with
  | ok a => exact fun _ => rfl
  | error t => exact .throw t

end Settles

/-! ## Memories and tables -/

namespace Memory

/-- What an operation makes of a memory. -/
inductive Changes (m : Memory) : Memory → Prop
  | overwrite {addr : Nat} {bytes : List UInt8} (h : addr + bytes.length ≤ m.byteLength) :
      Changes m (m.overwrite addr bytes)
  | grow {delta : Nat} (h : m.pageCount + delta ≤ m.growthLimit) :
      Changes m { m with pages := m.pages ++ Array.replicate delta Page.zero }
  | none : Changes m m

theorem settles_guarded {addr : Nat} {bytes : List UInt8} (hlen : bytes.length = len) :
    Settles Changes (guarded addr len (·.overwrite addr bytes)) := by
  intro m
  unfold guarded
  by_cases hb : m.inBounds addr len
  · rw [if_pos hb]
    exact .overwrite (by rw [hlen]; exact of_decide_eq_true hb)
  · rw [if_neg hb]

theorem settles_write (addr : Nat) (bytes : List UInt8) : Settles Changes (write addr bytes) :=
  settles_guarded rfl

theorem settles_store (addr len value : Nat) : Settles Changes (store addr len value) :=
  settles_guarded (LittleEndian.length_ofNat len value)

theorem settles_fill (dst : Nat) (b : UInt8) (len : Nat) : Settles Changes (fill dst b len) :=
  settles_guarded List.length_replicate

theorem settles_copyFrom (source : Memory) (dst src len : Nat) :
    Settles Changes (copyFrom source dst src len) := by
  intro m
  unfold copyFrom
  by_cases hb : source.inBounds src len
  · rw [if_pos hb]
    exact settles_guarded (source.length_slice src len) m
  · rw [if_neg hb]

theorem settles_copy (dst src len : Nat) : Settles Changes (copy dst src len) :=
  fun m => settles_copyFrom m dst src len m

theorem settles_init (dst : Nat) (data : ByteArray) (src len : Nat) :
    Settles Changes (init dst data src len) := by
  intro m
  unfold init
  by_cases hb : src + len ≤ data.size
  · rw [if_pos hb]
    refine settles_guarded ?_ m
    rw [toList_eq_data, Array.length_toList, ByteArray.size_data, ByteArray.size_extract]
    omega
  · rw [if_neg hb]

theorem settles_grow (delta : Nat) : Settles Changes (grow delta) := by
  intro m
  unfold grow
  by_cases hb : m.pageCount + delta ≤ m.growthLimit
  · simp only [if_pos hb]
    exact .grow hb
  · simp only [if_neg hb]
    exact .none

end Memory

namespace Table

variable {ρ : Type}

/-- What an operation makes of a table. -/
inductive Changes (t : Table ρ) : Table ρ → Prop
  | overwrite {start : Nat} {entries : List (Option ρ)} (h : start + entries.length ≤ t.size) :
      Changes t (t.overwrite start entries)
  | grow {delta : Nat} {entry : Option ρ} (h : t.size + delta ≤ sizeLimit t.maximum) :
      Changes t { t with entries := t.entries ++ Array.replicate delta entry }
  | none : Changes t t

theorem settles_guarded {start : Nat} {entries : List (Option ρ)} (hlen : entries.length = len) :
    Settles Changes (guarded start len (·.overwrite start entries)) := by
  intro t
  unfold guarded
  by_cases hb : t.inBounds start len
  · rw [if_pos hb]
    exact .overwrite (by rw [hlen]; exact of_decide_eq_true hb)
  · rw [if_neg hb]

theorem settles_set (index : Nat) (entry : Option ρ) : Settles Changes (set index entry) :=
  settles_guarded rfl

theorem settles_fill (dst : Nat) (entry : Option ρ) (len : Nat) :
    Settles Changes (fill dst entry len) :=
  settles_guarded List.length_replicate

theorem settles_copyFrom (source : Table ρ) (dst src len : Nat) :
    Settles Changes (copyFrom source dst src len) := by
  intro t
  unfold copyFrom
  by_cases hb : source.inBounds src len
  · rw [if_pos hb]
    exact settles_guarded (length_extract (of_decide_eq_true hb)) t
  · rw [if_neg hb]

theorem settles_copy (dst src len : Nat) : Settles Changes (copy dst src len : TableM ρ Unit) := by
  intro t
  rw [copy_eq]
  exact settles_copyFrom t dst src len t

theorem settles_init (dst : Nat) (segment : Array (Option ρ)) (src len : Nat) :
    Settles Changes (init dst segment src len) := by
  intro t
  unfold init
  by_cases hb : src + len ≤ segment.size
  · rw [if_pos hb]
    exact settles_guarded (length_extract hb) t
  · rw [if_neg hb]

theorem settles_grow (delta : Nat) (entry : Option ρ) : Settles Changes (grow delta entry) := by
  intro t
  unfold grow
  by_cases hb : t.size + delta ≤ sizeLimit t.maximum
  · simp only [if_pos hb]
    exact .grow hb
  · simp only [if_neg hb]
    exact .none

end Table

/-! ## The store -/

/-- What an operation makes of the store. -/
inductive Store.Change (s : Store) : Store → Prop
  | none : Change s s
  | memory {addr : MemoryAddr} {m m' : Memory} (h : s.memories[addr.index]? = some m)
      (h' : m.Changes m') :
      Change s { s with memories := s.memories.setIfInBounds addr.index m' }
  | table {addr : TableAddr} {t : TableInst} {table : Table Ref}
      (h : s.tables[addr.index]? = some t) (h' : t.table.Changes table) :
      Change s { s with tables := s.tables.setIfInBounds addr.index { t with table } }
  | global {addr : GlobalAddr} {value : Value} : Change s (s.setGlobal addr value)
  | dropElem {addr : ElemAddr} : Change s (s.dropElem addr)
  | dropData {addr : DataAddr} : Change s (s.dropData addr)

/-- An operation changes one object that its instance lists. -/
inductive Store.ChangeBy (inst : Instance) (op : Op Nat) (s : Store) : Store → Prop
  | none : ChangeBy inst op s s
  | memory {index : Nat} {addr : MemoryAddr} {m m' : Memory}
      (ha : inst.memories[index]? = some addr) (h : s.memories[addr.index]? = some m)
      (h' : m.Changes m') :
      ChangeBy inst op s { s with memories := s.memories.setIfInBounds addr.index m' }
  | table {index : Nat} {addr : TableAddr} {t : TableInst} {table : Table Ref}
      (ha : inst.tables[index]? = some addr) (h : s.tables[addr.index]? = some t)
      (h' : t.table.Changes table) :
      ChangeBy inst op s { s with tables := s.tables.setIfInBounds addr.index { t with table } }
  | global {ref : GlobalRef} {addr : GlobalAddr} {value : Value}
      (hop : op = .basic (.globalSet ref)) (ha : inst.global? ref = some addr) :
      ChangeBy inst op s (s.setGlobal addr value)
  | dropElem {index : Nat} {addr : ElemAddr} (hop : op = .basic (.elemDrop index))
      (ha : inst.elems[index]? = some addr) : ChangeBy inst op s (s.dropElem addr)
  | dropData {index : Nat} {addr : DataAddr} (hop : op = .basic (.dataDrop index))
      (ha : inst.data[index]? = some addr) : ChangeBy inst op s (s.dropData addr)

variable {inst : Instance} {s s' : Store}

theorem Store.ChangeBy.change (h : s.ChangeBy inst op s') : s.Change s' := by
  cases h with
  | none => exact .none
  | memory _ h h' => exact .memory h h'
  | table _ h h' => exact .table h h'
  | global _ _ => exact .global
  | dropElem _ _ => exact .dropElem
  | dropData _ _ => exact .dropData

theorem Store.Change.agrees (h : s.Change s') : s.Agrees s' := by
  cases h with
  | none => exact .refl s
  | memory => exact { Agrees.refl s with memories := Array.size_setIfInBounds }
  | table h => exact agrees_setTable h _
  | global => exact s.agrees_setGlobal _ _
  | dropElem => exact s.agrees_dropElem _
  | dropData => exact s.agrees_dropData _

section

variable (h : s.ChangeBy inst op s')
include h

theorem Store.ChangeBy.funcs_eq : s'.funcs = s.funcs := by
  cases h <;> rfl

theorem Store.ChangeBy.memories_eq (hne : ∀ i : Nat, inst.memories[i]? ≠ some addr) :
    s'.memories[addr.index]? = s.memories[addr.index]? := by
  cases h with
  | none | table | global | dropElem | dropData => rfl
  | @memory i addr' _ _ ha _ _ =>
    have hindex : addr'.index ≠ addr.index := fun heq =>
      hne i (ha.trans (congrArg (some ∘ MemoryAddr.mk) heq))
    exact Array.getElem?_setIfInBounds_ne hindex

theorem Store.ChangeBy.tables_eq {addr : TableAddr} (hne : ∀ i : Nat, inst.tables[i]? ≠ some addr) :
    s'.tables[addr.index]? = s.tables[addr.index]? := by
  cases h with
  | none | memory | global | dropElem | dropData => rfl
  | @table i addr' _ _ ha _ _ =>
    have hindex : addr'.index ≠ addr.index := fun heq =>
      hne i (ha.trans (congrArg (some ∘ TableAddr.mk) heq))
    exact Array.getElem?_setIfInBounds_ne hindex

theorem Store.ChangeBy.globals_eq {addr : GlobalAddr}
    (hne : ∀ ref : GlobalRef, inst.global? ref ≠ some addr) :
    s'.globals[addr.index]? = s.globals[addr.index]? := by
  cases h with
  | none | memory | table | dropElem | dropData => rfl
  | @global ref addr' _ _ ha =>
    have hindex : addr'.index ≠ addr.index := fun heq =>
      hne ref (ha.trans (congrArg (some ∘ GlobalAddr.mk) heq))
    rw [Store.setGlobal, Array.getElem?_modify, if_neg hindex]

theorem Store.ChangeBy.elems_eq {addr : ElemAddr}
    (hne : ∀ i, op = .basic (.elemDrop i) → inst.elems[i]? ≠ some addr) :
    s'.elems[addr.index]? = s.elems[addr.index]? := by
  cases h with
  | none | memory | table | global | dropData => rfl
  | @dropElem i addr' hop ha =>
    have hindex : addr'.index ≠ addr.index := fun heq =>
      hne i hop (ha.trans (congrArg (some ∘ ElemAddr.mk) heq))
    exact Array.getElem?_setIfInBounds_ne hindex

theorem Store.ChangeBy.data_eq {addr : DataAddr}
    (hne : ∀ i, op = .basic (.dataDrop i) → inst.data[i]? ≠ some addr) :
    s'.data[addr.index]? = s.data[addr.index]? := by
  cases h with
  | none | memory | table | global | dropElem => rfl
  | @dropData i addr' hop ha =>
    have hindex : addr'.index ≠ addr.index := fun heq =>
      hne i hop (ha.trans (congrArg (some ∘ DataAddr.mk) heq))
    rw [Store.dropData, Array.getElem?_modify, if_neg hindex]

end

theorem setIfInBounds_getElem? {α : Type} {xs : Array α} {i : Nat} {x : α} (h : xs[i]? = some x) :
    xs.setIfInBounds i x = xs := by
  obtain ⟨hi, rfl⟩ := Array.getElem?_eq_some_iff.mp h
  rw [Array.setIfInBounds, dif_pos hi, Array.set_getElem_self]

namespace Store

variable {α : Type} {R : Store → Store → Prop}

theorem settles_onMemory {op : MemoryM α} (h : Settles Memory.Changes op)
    (hR : ∀ {s : Store} {m m' : Memory}, s.memories[addr.index]? = some m → m.Changes m' →
      R s { s with memories := s.memories.setIfInBounds addr.index m' }) :
    Settles R (onMemory addr op) := by
  intro s
  rw [onMemory_eq]
  cases hm : s.memories[addr.index]? with
  | none => rfl
  | some m =>
    cases hop : op m with
    | ok a m' =>
      simp only [hop]
      exact hR hm (h.ok hop)
    | error t m' =>
      simp only [hop]
      rw [h.restores m t m' hop, setIfInBounds_getElem? hm]

theorem settles_onTable {op : TableM Ref α} (h : Settles Table.Changes op) {addr : TableAddr}
    (hR : ∀ {s : Store} {t : TableInst} {table : Table Ref}, s.tables[addr.index]? = some t →
      t.table.Changes table →
      R s { s with tables := s.tables.setIfInBounds addr.index { t with table } }) :
    Settles R (onTable addr op) := by
  intro s
  rw [onTable_eq]
  cases ht : s.tables[addr.index]? with
  | none => rfl
  | some t =>
    cases hop : op t.table with
    | ok a table =>
      simp only [hop]
      exact hR ht (h.ok hop)
    | error trap table =>
      simp only [hop]
      rw [h.restores t.table trap table hop, setIfInBounds_getElem? ht]

theorem attempt_of_settles {op : StoreM α} (h : Settles R op) (hrefl : ∀ s, R s s) (s : Store) :
    R s (attempt op s) := by
  unfold attempt
  split
  · next hx => exact h.ok hx
  · exact hrefl s

theorem change_amend (s : Store) (c : HostChange) : s.Change (s.amend c) := by
  cases c with
  | writeMemory addr start bytes =>
    exact attempt_of_settles (settles_onMemory (Memory.settles_write _ _) .memory)
      (fun _ => .none) s
  | growMemory addr delta =>
    exact attempt_of_settles (settles_onMemory (Memory.settles_grow _) .memory) (fun _ => .none) s
  | setEntry addr index entry =>
    exact attempt_of_settles (settles_onTable (Table.settles_set _ _) .table) (fun _ => .none) s
  | growTable addr delta entry =>
    exact attempt_of_settles (settles_onTable (Table.settles_grow _ _) .table) (fun _ => .none) s
  | setGlobal addr value =>
    rw [amend]
    split
    · split
      · exact .global
      · exact .none
    · exact .none

end Store

namespace Frame

theorem inspects_memoryAddr (f : Frame) (index : Nat) : Inspects (f.memoryAddr index) := by
  unfold memoryAddr
  split
  · exact fun _ => rfl
  · exact .throw _

theorem inspects_memory (f : Frame) (index : Nat) : Inspects (f.memory index) := by
  refine (f.inspects_memoryAddr index).reading fun addr => Settles.get.reading fun s => ?_
  split
  · exact fun _ => rfl
  · exact .throw _

theorem inspects_tableAddr (f : Frame) (index : Nat) : Inspects (f.tableAddr index) := by
  unfold tableAddr
  split
  · exact fun _ => rfl
  · exact .throw _

theorem inspects_table (f : Frame) (index : Nat) : Inspects (f.table index) := by
  refine (f.inspects_tableAddr index).reading fun addr => Settles.get.reading fun s => ?_
  split
  · exact fun _ => rfl
  · exact .throw _

theorem inspects_indirect (f : Frame) (type table index : Nat) :
    Inspects (f.indirect type table index) := by
  refine (f.inspects_table table).reading fun t => (Settles.lift _).reading fun entry => ?_
  split
  · exact .throw _
  · exact .throw _
  · refine Settles.get.reading fun s => ?_
    split
    · exact fun _ => rfl
    · exact .throw _

theorem inspects_globalGet (f : Frame) (global : GlobalRef) : Inspects (f.globalGet global) := by
  unfold globalGet
  split
  · refine Settles.get.reading fun s => ?_
    split
    · exact fun _ => rfl
    · exact fun _ => rfl
  · exact fun _ => rfl

/-- It makes a change of this kind, or traps and makes none. -/
structure Works (f : Frame) (R : Store → Store → Prop) (x : StoreM Frame) : Prop where
  settles : Settles R x
  continues : Ensures f.Continues x

section Works

variable {f : Frame} {R : Store → Store → Prop} {α : Type}

theorem Works.reading {x : StoreM α} {k : α → StoreM Frame} (hx : Inspects x)
    (h : ∀ a, f.Works R (k a)) : f.Works R (x >>= k) :=
  ⟨hx.reading fun a => (h a).settles, .bind fun a => (h a).continues⟩

theorem Works.ite [Decidable P] {x y : StoreM Frame} (hx : f.Works R x) (hy : f.Works R y) :
    f.Works R (if P then x else y) :=
  ⟨.ite hx.settles hy.settles, .ite hx.continues hy.continues⟩

theorem Works.throw (t : Trap) : f.Works R (throw t) :=
  ⟨.throw t, fun _ _ _ h => by cases h⟩

theorem works_of_settles {x : StoreM α} (h : Settles R x) (vs : α → List Value) :
    f.Works R (x >>= fun a => pure (f.withOperands (vs a))) :=
  ⟨h.yielding _, .bind fun _ => .pure (.withOperands f _)⟩

variable {index : Nat}

theorem works_onMemory {k : MemoryAddr → StoreM Frame}
    (h : ∀ addr, f.inst.memories[index]? = some addr → f.Works R (k addr)) :
    f.Works R (f.memoryAddr index >>= k) := by
  unfold memoryAddr
  cases ha : f.inst.memories[index]? with
  | none => exact .throw _
  | some addr => exact h addr ha

theorem works_onTable {k : TableAddr → StoreM Frame}
    (h : ∀ addr, f.inst.tables[index]? = some addr → f.Works R (k addr)) :
    f.Works R (f.tableAddr index >>= k) := by
  unfold tableAddr
  cases ha : f.inst.tables[index]? with
  | none => exact .throw _
  | some addr => exact h addr ha

end Works

theorem settles_memoryAccess (access : MemoryAccess) (addr : Nat) (value : Value) :
    Settles Memory.Changes (access.store addr value) := by
  unfold MemoryAccess.store
  repeat' split
  all_goals first | exact Memory.settles_store _ _ _ | exact .throw _

variable (f : Frame)

theorem works_load (access : MemoryAccess) (memory offset : Nat) :
    f.Works (Store.ChangeBy f.inst op) (f.load access memory offset) :=
  .reading (f.inspects_memory memory) fun _ =>
    works_of_settles (.of_inspects (.lift _) fun _ => .none) _

theorem works_memory (index : Nat) {α : Type} {x : MemoryM α} (h : Settles Memory.Changes x)
    (vs : α → List Value) : f.Works (Store.ChangeBy f.inst op) (f.memoryAddr index >>= fun addr =>
      Store.onMemory addr x >>= fun a => pure (f.withOperands (vs a))) :=
  works_onMemory fun _ ha => works_of_settles (Store.settles_onMemory h (.memory ha)) _

theorem works_table (index : Nat) {α : Type} {x : TableM Ref α} (h : Settles Table.Changes x)
    (vs : α → List Value) : f.Works (Store.ChangeBy f.inst op) (f.tableAddr index >>= fun addr =>
      Store.onTable addr x >>= fun a => pure (f.withOperands (vs a))) :=
  works_onTable fun _ ha => works_of_settles (Store.settles_onTable h (.table ha)) _

theorem works_store (access : MemoryAccess) (memory offset : Nat) :
    f.Works (Store.ChangeBy f.inst op) (f.store access memory offset) :=
  f.works_memory memory (settles_memoryAccess _ _ _) _

theorem works_access (id : Nat) : f.Works (Store.ChangeBy f.inst op) (f.access id) := by
  unfold access
  split
  · exact f.works_load _ _ _
  · exact f.works_store _ _ _
  · exact .throw _

theorem works_memoryCopy (dst src : Nat) :
    f.Works (Store.ChangeBy f.inst op) (f.memoryCopy dst src) := by
  refine works_onMemory fun d hd => .reading (f.inspects_memoryAddr src) fun s => .ite ?_ ?_
  · exact works_of_settles (Store.settles_onMemory (Memory.settles_copy _ _ _) (.memory hd)) _
  · exact .reading (f.inspects_memory src) fun m =>
      works_of_settles (Store.settles_onMemory (Memory.settles_copyFrom m _ _ _) (.memory hd)) _

theorem works_tableGet (table : Nat) : f.Works (Store.ChangeBy f.inst op) (f.tableGet table) :=
  .reading (f.inspects_table table) fun _ =>
    works_of_settles (.of_inspects (.lift _) fun _ => .none) _

theorem works_tableCopy (dst src : Nat) :
    f.Works (Store.ChangeBy f.inst op) (f.tableCopy dst src) := by
  refine works_onTable fun d hd => .reading (f.inspects_tableAddr src) fun s => .ite ?_ ?_
  · exact works_of_settles (Store.settles_onTable (Table.settles_copy _ _ _) (.table hd)) _
  · exact .reading (f.inspects_table src) fun t =>
      works_of_settles (Store.settles_onTable (Table.settles_copyFrom t.table _ _ _) (.table hd)) _

theorem works_globalSet (global : GlobalRef) :
    f.Works (Store.ChangeBy f.inst (.basic (.globalSet global))) (f.globalSet global) := by
  unfold globalSet
  dsimp only
  split
  · next addr ha =>
      exact ⟨fun _ => .global rfl ha, .bind fun _ => .pure (.withOperands f _)⟩
  · exact ⟨fun _ => .none, .pure (.withOperands f _)⟩

end Frame

def Acts (f : Frame) (R : Store → Store → Prop) (x : StoreM Effect) : Prop :=
  ∀ s, match x s with
    | .ok (.next g) s' => R s s' ∧ f.Continues g
    | .ok (.call _ g) s' | .ok (.leave g) s' => s' = s ∧ f.Continues g
    | .error _ s' => s' = s

namespace Acts

variable {f g : Frame} {R : Store → Store → Prop} {x : StoreM Effect} {s s' : Store}

theorem of_works {x : StoreM Frame} (h : f.Works R x) :
    Acts f R (x >>= fun g => pure (.next g)) := by
  intro s
  cases hx : x s with
  | ok g s1 =>
    rw [bind_of_ok hx]
    exact ⟨h.settles.ok hx, h.continues s g s1 hx⟩
  | error t s1 =>
    rw [bind_of_error hx]
    exact h.settles.restores s t s1 hx

variable {effect : Effect}

theorem pure (hR : ∀ s, R s s) (h : f.Continues effect.frame) : Acts f R (pure effect) := by
  intro s
  cases effect with
  | next g => exact ⟨hR s, h⟩
  | call func g | leave g => exact ⟨rfl, h⟩

theorem reading {α : Type} {x : StoreM α} {k : α → StoreM Effect} (hx : Inspects x)
    (hk : ∀ a, Acts f R (k a)) : Acts f R (x >>= k) := by
  intro s
  cases hr : x s with
  | ok a s1 =>
    rw [bind_of_ok hr, hx.ok hr]
    exact hk a s
  | error t s1 =>
    rw [bind_of_error hr]
    exact hx.restores s t s1 hr

variable (h : Acts f R x)
include h

theorem mono {f' : Frame} {R' : Store → Store → Prop} (hR : ∀ s s', R s s' → R' s s')
    (hf : ∀ g, f.Continues g → f'.Continues g) : Acts f' R' x := by
  intro s
  have := h s
  split at this
  · exact ⟨hR _ _ this.1, hf _ this.2⟩
  · exact ⟨this.1, hf _ this.2⟩
  · exact ⟨this.1, hf _ this.2⟩
  · exact this

theorem next (hx : x s = .ok (.next g) s') : R s s' := by
  have := h s
  rw [hx] at this
  exact this.1

theorem call {func : FuncAddr} (hx : x s = .ok (.call func g) s') : s' = s := by
  have := h s
  rw [hx] at this
  exact this.1

theorem leave (hx : x s = .ok (.leave g) s') : s' = s := by
  have := h s
  rw [hx] at this
  exact this.1

theorem error {t : Trap} (hx : x s = .error t s') : s' = s := by
  have := h s
  rwa [hx] at this

theorem continues (hx : x s = .ok effect s') : f.Continues effect.frame := by
  have := h s
  rw [hx] at this
  cases effect <;> exact this.2

end Acts

open Wasm.Frame in
theorem BasicOp.exec_acts (f : Frame) (op : BasicOp) :
    Acts f (Store.ChangeBy f.inst (.basic op)) (op.exec f) := by
  have hpure : ∀ {op : BasicOp} {effect : Effect}, f.Continues effect.frame →
      Acts f (Store.ChangeBy f.inst (.basic op)) (pure effect) := .pure fun _ => .none
  have hput : ∀ {op : BasicOp} (vs : List Value),
      Acts f (Store.ChangeBy f.inst (.basic op)) (pure (.next (f.withOperands vs))) :=
    fun vs => hpure (.withOperands f vs)
  cases op with
  | localSet slot => exact hpure (.write f slot _ _)
  | localTee slot =>
    rw [exec]
    split
    · exact hpure (.write f slot _ f.operands)
    · exact hpure ⟨rfl, rfl, rfl⟩
  | binary op | unary op => exact .reading (.lift _) fun _ => hput _
  | call func =>
    rw [exec]
    split
    · exact hpure ⟨rfl, rfl, rfl⟩
    · exact fun _ => rfl
  | callIndirect type table =>
    exact .reading (f.inspects_indirect _ _ _) fun _ => hpure (.withOperands f _)
  | ret => exact hpure ⟨rfl, rfl, rfl⟩
  | unreachable => exact fun _ => rfl
  | globalGet global => exact .reading (f.inspects_globalGet _) fun _ => hput _
  | globalSet global => exact .of_works (f.works_globalSet _)
  | load access memory offset => exact .of_works (f.works_load _ _ _)
  | store access memory offset => exact .of_works (f.works_store _ _ _)
  | loadVia id | storeVia id => exact .of_works (f.works_access _)
  | memorySize memory => exact .reading (f.inspects_memory _) fun _ => hput _
  | memoryGrow memory => exact .of_works (f.works_memory memory (Memory.settles_grow _) _)
  | memoryInit data memory =>
    exact .of_works (.reading .get fun _ => f.works_memory memory (Memory.settles_init _ _ _ _) _)
  | dataDrop data =>
    rw [exec]
    split
    · next addr ha => exact fun _ => ⟨.dropData rfl ha, rfl, rfl, rfl⟩
    · exact hput f.operands
  | memoryCopy dst src => exact .of_works (f.works_memoryCopy _ _)
  | memoryFill memory => exact .of_works (f.works_memory memory (Memory.settles_fill _ _ _) _)
  | tableGet table => exact .of_works (f.works_tableGet _)
  | tableSet table => exact .of_works (f.works_table table (Table.settles_set _ _) _)
  | tableSize table => exact .reading (f.inspects_table _) fun _ => hput _
  | tableGrow table => exact .of_works (f.works_table table (Table.settles_grow _ _) _)
  | tableFill table => exact .of_works (f.works_table table (Table.settles_fill _ _ _) _)
  | tableCopy dst src => exact .of_works (f.works_tableCopy _ _)
  | tableInit elem table =>
    exact .of_works (.reading .get fun _ => f.works_table table (Table.settles_init _ _ _ _) _)
  | elemDrop elem =>
    rw [exec]
    split
    · next addr ha => exact fun _ => ⟨.dropElem rfl ha, rfl, rfl, rfl⟩
    · exact hput f.operands
  | unpack carrier =>
    rw [exec]
    split
    · exact hput _
    · exact hput _
  | _ => exact hput _

variable {f : Frame} {R : Store → Store → Prop} {delta : Nat}

theorem BasicOp.keeps {op : BasicOp} {x : StoreM Frame}
    (h : op.exec f = x >>= fun f' => pure (.next f')) : Keeps Store.Agrees x := by
  intro s
  have hacts := op.exec_acts f
  rw [h] at hacts
  cases hx : x s with
  | ok f' s' => exact (hacts.next (bind_of_ok hx)).change.agrees
  | error t s' => cases hacts.error (bind_of_error hx); exact .refl s

theorem Op.exec_acts (f : Frame) (op : Op Nat) : Acts f (Store.ChangeBy f.inst op) (op.exec f) := by
  cases op with
  | basic op => exact op.exec_acts f
  | _ => exact fun _ => ⟨.none, rfl, rfl, rfl⟩

def Frame.Changes (f : Frame) (s s' : Store) : Prop :=
  ∃ op, f.func.code[f.pc]? = some op ∧ s.ChangeBy f.inst op s'

theorem Frame.step_acts (f : Frame) : Acts f f.Changes f.step := by
  unfold step
  split
  · next op hop =>
      exact (op.exec_acts _).mono (fun _ _ h => ⟨op, hop, h⟩) fun _ h => ⟨h.inst, h.func, h.size⟩
  · exact fun _ => ⟨rfl, rfl, rfl, rfl⟩

theorem Frame.Changes.change {s s' : Store} (h : f.Changes s s') : s.Change s' := by
  obtain ⟨op, -, hby⟩ := h
  exact hby.change

/-! ## Steps of the machine -/

/-- What a step makes of the store. -/
inductive Machine.Alters (s : Store) : Machine → Store → Prop
  | none {mc : Machine} : Alters s mc s
  | report {type : FuncType} {program : HostProgram} {callers : List Activation} {room : Nat}
      {trace : Array HostEvent} : Alters s ⟨.host type program, callers, room⟩ { s with trace }
  | change {type : FuncType} {c : HostChange} {next : HostProgram} {callers : List Activation}
      {room : Nat} : Alters s ⟨.host type (.change c next), callers, room⟩ (s.amend c)
  | frame {f : Frame} {callers : List Activation} {room : Nat} {s' : Store} (h : f.Changes s s') :
      Alters s ⟨.frame f, callers, room⟩ s'

theorem Machine.step_alters (s : Store) (mc : Machine) : Alters s mc (step s mc).store := by
  obtain ⟨control, callers, room⟩ := mc
  cases control with
  | host type program =>
    rw [step]
    cases program with
    | answer values =>
      rw [hostStep]
      split
      · rw [store_deliver]; exact .none
      · rw [store_unwind]; exact .none
    | trap t => rw [hostStep, store_unwind]; exact .none
    | report event next => exact .report
    | inspect resume => exact .none
    | change c next => exact .change
    | invoke func args resume =>
      rw [hostStep]
      split
      · rw [store_unwind]; exact .none
      · split
        · exact .none
        · rw [store_call]; exact .none
  | frame f =>
    rw [step]
    cases hs : f.step s with
    | ok effect s' =>
      cases effect with
      | next f' => exact .frame (f.step_acts.next hs)
      | call func f' =>
        cases f.step_acts.call hs
        simp only [callFrom, store_call]
        exact .none
      | leave f' =>
        cases f.step_acts.leave hs
        simp only [store_deliver]
        exact .none
    | error t s' =>
      cases f.step_acts.error hs
      simp only [store_unwind]
      exact .none

theorem Machine.step_agrees (s : Store) (mc : Machine) : s.Agrees (step s mc).store := by
  have h := step_alters s mc
  generalize (step s mc).store = s' at h
  cases h with
  | none => exact .refl s
  | report => exact s.agrees_trace _
  | change => exact (s.change_amend _).agrees
  | frame h => exact h.change.agrees

theorem Machine.run_along (hrefl : ∀ s, R s s)
    (htrans : ∀ {s s' s''}, R s s' → R s' s'' → R s s'') (hstep : ∀ s mc, R s (step s mc).store)
    (fuel : Nat) (s : Store) (mc : Machine) : R s (run fuel s mc).2 := by
  induction fuel generalizing s mc with
  | zero => exact hrefl s
  | succ fuel ih =>
    have h := hstep s mc
    rw [run]
    cases hs : step s mc with
    | next s' mc' => rw [hs] at h; exact htrans h (ih s' mc')
    | done s' outcome => rw [hs] at h; exact h

theorem Store.runFunc_along (hrefl : ∀ s, R s s)
    (htrans : ∀ {s s' s''}, R s s' → R s' s'' → R s s'')
    (hstep : ∀ s mc, R s (Machine.step s mc).store) (fuel : Nat) (s : Store) (func : FuncAddr)
    (args : List Value) (depth : Nat) : R s (s.runFunc fuel func args depth).2 := by
  have hstore := Machine.store_call s func args [] depth
  unfold runFunc
  cases hcall : Machine.call s func args [] depth with
  | done s' outcome => rw [hcall] at hstore; cases hstore; exact hrefl _
  | next s' m =>
    rw [hcall] at hstore
    cases hstore
    have h := Machine.run_along hrefl htrans hstep fuel s' m
    dsimp only
    split
    · next heq => rw [heq] at h; exact h
    · exact h

/-! ## Traps of the machine -/

namespace Machine

variable {s s' : Store} {f : Frame} {callers : List Activation} {room : Nat} {t : Trap}

theorem unwind_ne_frame (s s' : Store) (t : Trap) (callers callers' : List Activation) (f : Frame)
    (room : Nat) : unwind s t callers ≠ .next s' ⟨.frame f, callers', room⟩ := by
  induction callers with
  | nil => intro h; cases h
  | cons caller callers ih =>
    cases caller with
    | frame g => exact ih
    | host type arity room resume => intro h; cases h

theorem eq_of_step_eq_unwind (h : step s ⟨.frame f, callers, room⟩ = unwind s' t callers) :
    s' = s := by
  have hstore : (step s ⟨.frame f, callers, room⟩).store = s' := by rw [h, store_unwind]
  unfold step at h hstore
  dsimp only at h hstore
  cases hs : f.step s with
  | ok effect s1 =>
    rw [hs] at h hstore
    cases effect with
    | next f' => exact absurd h.symm (unwind_ne_frame _ _ _ _ _ _ _)
    | call func f' =>
      cases f.step_acts.call hs
      rw [← hstore]
      exact store_call s func _ _ room
    | leave f' =>
      cases f.step_acts.leave hs
      rw [← hstore]
      exact store_deliver s f'.result callers (room + 1)
  | error t' s1 =>
    cases f.step_acts.error hs
    rw [hs] at hstore
    rw [← hstore]
    exact store_unwind s t' callers

theorem step_of_error (h : f.step s = .error t s') :
    step s ⟨.frame f, callers, room⟩ = unwind s t callers := by
  cases f.step_acts.error h
  unfold step
  dsimp only
  rw [h]

end Machine

theorem Memory.eq_of_grow_neg_one {m m' : Memory} (h : Memory.grow delta m = .ok (-1) m') :
    m' = m := by
  unfold grow at h
  dsimp only at h
  split at h
  · exact absurd (EStateM.Result.ok.inj h).1 (by omega)
  · exact (EStateM.Result.ok.inj h).2.symm

theorem Table.eq_of_grow_neg_one {ρ : Type} {entry : Option ρ} {t t' : Table ρ}
    (h : Table.grow delta entry t = .ok (-1) t') : t' = t := by
  unfold grow at h
  dsimp only at h
  split at h
  · exact absurd (EStateM.Result.ok.inj h).1 (by omega)
  · exact (EStateM.Result.ok.inj h).2.symm

open Machine in
/-- **A trap changes nothing by itself**: the store at the trap is the one before the operation. -/
theorem trap_leaves_store : ((∀ addr bytes, Restores (Memory.write addr bytes)) ∧
      (∀ addr len value, Restores (Memory.store addr len value)) ∧
      (∀ dst b len, Restores (Memory.fill dst b len)) ∧
      (∀ dst src len, Restores (Memory.copy dst src len)) ∧
      (∀ source dst src len, Restores (Memory.copyFrom source dst src len)) ∧
      (∀ dst data src len, Restores (Memory.init dst data src len)) ∧
      (∀ delta, Restores (Memory.grow delta)) ∧
      ∀ delta m m', Memory.grow delta m = .ok (-1) m' → m' = m) ∧
    (∀ ρ : Type, (∀ index entry, Restores (Table.set index entry : TableM ρ Unit)) ∧
      (∀ dst entry len, Restores (Table.fill dst entry len : TableM ρ Unit)) ∧
      (∀ dst src len, Restores (Table.copy dst src len : TableM ρ Unit)) ∧
      (∀ source dst src len, Restores (Table.copyFrom source dst src len : TableM ρ Unit)) ∧
      (∀ dst segment src len, Restores (Table.init dst segment src len : TableM ρ Unit)) ∧
      (∀ delta entry, Restores (Table.grow delta entry : TableM ρ Int)) ∧
      ∀ delta entry (t t' : Table ρ), Table.grow delta entry t = .ok (-1) t' → t' = t) ∧
    ∀ (s : Store) (f : Frame) (callers : List Activation) (room : Nat) (t : Trap) (s' : Store),
      (f.step s = .error t s' → s' = s ∧ step s ⟨.frame f, callers, room⟩ = unwind s t callers) ∧
      (step s ⟨.frame f, callers, room⟩ = unwind s' t callers → s' = s) := by
  refine ⟨⟨?_, ?_, ?_, ?_, ?_, ?_, ?_, ?_⟩, fun ρ => ⟨?_, ?_, ?_, ?_, ?_, ?_, ?_⟩, ?_⟩
  · exact fun _ _ => (Memory.settles_write _ _).restores
  · exact fun _ _ _ => (Memory.settles_store _ _ _).restores
  · exact fun _ _ _ => (Memory.settles_fill _ _ _).restores
  · exact fun _ _ _ => (Memory.settles_copy _ _ _).restores
  · exact fun _ _ _ _ => (Memory.settles_copyFrom _ _ _ _).restores
  · exact fun _ _ _ _ => (Memory.settles_init _ _ _ _).restores
  · exact fun _ => (Memory.settles_grow _).restores
  · exact fun _ _ _ => Memory.eq_of_grow_neg_one
  · exact fun _ _ => (Table.settles_set _ _).restores
  · exact fun _ _ _ => (Table.settles_fill _ _ _).restores
  · exact fun _ _ _ => (Table.settles_copy _ _ _).restores
  · exact fun _ _ _ _ => (Table.settles_copyFrom _ _ _ _).restores
  · exact fun _ _ _ _ => (Table.settles_init _ _ _ _).restores
  · exact fun _ _ => (Table.settles_grow _ _).restores
  · exact fun _ _ _ _ => Table.eq_of_grow_neg_one
  · intro s f callers room t s'
    exact ⟨fun h => ⟨f.step_acts.error h, step_of_error h⟩, eq_of_step_eq_unwind⟩

def Table.three : Table Ref := ⟨#[some (.func ⟨0⟩), some (.func ⟨1⟩), some (.func ⟨2⟩)], none⟩

def Store.threeEntries : Store := { Store.empty with tables := #[⟨.funcRef, .three⟩] }

def Frame.onTable (op : BasicOp) (operands : List Value) : Frame :=
  { inst := { (default : Instance) with tables := #[⟨0⟩] }
    func := { (default : CompiledFunction) with code := #[.basic op] }
    pc := 0, locals := #[], operands }

open Machine in
/-- Filling beyond the last entry writes none. -/
theorem overfill_leaves_store : (∃ e t, Table.fill 1 none 3 .three = .error e t ∧ t = .three) ∧
    ∃ t s', (Frame.onTable (.tableFill 0) [.i32 3, .funcRef none, .i32 1]).step .threeEntries =
        .error t s' ∧ s' = .threeEntries ∧
      step .threeEntries ⟨.frame (.onTable (.tableFill 0) [.i32 3, .funcRef none, .i32 1]), [], 0⟩ =
        .done .threeEntries (.trap t) :=
  ⟨⟨_, _, rfl, (trap_leaves_store.2.1 Ref).2.1 1 none 3 _ _ _ rfl⟩,
    _, _, rfl, (trap_leaves_store.2.2 _ _ [] 0 _ _).1 rfl⟩

end Wasm
