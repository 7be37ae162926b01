import Wasm.Proofs.Machine.Copies
import Wasm.Proofs.World.Instances

/-! # The life of a segment

A passive one is dropped by its instance alone (`World.Next.elems_eq`). -/

namespace Wasm

open Instance

variable {inst : Instance} {s s' s1 s2 : Store} {segment : DataSegment} {addr : DataAddr}
  {m : Module} {bindings : List Binding} {limit i : Nat} {home : InstanceAddr}
  {makes : GlobalInst → Prop} {w : World}

/-! ## The segments of a new instance -/

/-- Whether a segment is written at the start. -/
def SegmentMode.isActive : SegmentMode → Bool
  | .active _ _ => true
  | .passive | .declarative => false

/-- What an element segment holds once applied. -/
def ElementSegment.applied (eval : ConstExpr → Value) (segment : ElementSegment) :
    Array (Option Ref) :=
  if segment.mode = .passive then segment.items.map fun item => Ref.ofValue? (eval item) else #[]

namespace Instance

theorem applyData_eq_ok (h : inst.applyData segment addr s = .ok () s') :
    ∃ s1 : Store, s1.elems = s.elems ∧
      s1.data = s.data ∧ s' = if segment.mode.isActive then s1.dropData addr else s1 := by
  rw [applyData] at h
  cases hmode : segment.mode with
  | passive | declarative =>
    rw [hmode] at h
    cases h
    exact ⟨s, rfl, rfl, rfl⟩
  | active memory offset =>
    rw [hmode] at h
    cases hmemory : inst.memories[memory]? with
    | none =>
      simp only [hmemory] at h
      cases h
    | some memoryAddr =>
      simp only [hmemory] at h
      rw [bind_of_ok (get_apply s)] at h
      obtain ⟨_, s1, hop, hmodify⟩ := bind_eq_ok.mp h
      cases hmodify
      have hsame : s1.elems = s.elems ∧ s1.data = s.data :=
        (Store.settles_onMemory (R := fun s s' => s'.elems = s.elems ∧ s'.data = s.data)
          (Memory.settles_init _ _ _ _) fun _ _ => ⟨rfl, rfl⟩).ok hop
      exact ⟨s1, hsame.1, hsame.2, rfl⟩

section Views

variable {α β γ : Type} {apply : α → β → StoreM Unit} {pairs : List (α × β)}

theorem view_applyAll_eq (view : Store → γ)
    (heq : ∀ {a : α} {b : β} {s s' : Store}, apply a b s = .ok () s' → view s' = view s)
    (h : applyAll apply pairs s = .ok () s') : view s' = view s := by
  induction pairs generalizing s with
  | nil =>
    cases h
    rfl
  | cons pair pairs ih =>
    obtain ⟨_, s1, hhead, htail⟩ := bind_eq_ok.mp h
    exact (ih htail).trans (heq hhead)

theorem view_applyAll (view : Store → Nat → Option γ) (index : β → Nat) (change : α → γ → γ)
    (hself : ∀ {a : α} {b : β} {s s' : Store} {c : γ}, apply a b s = .ok () s' →
      view s (index b) = some c → view s' (index b) = some (change a c))
    (hother : ∀ {a : α} {b : β} {s s' : Store} {i : Nat}, apply a b s = .ok () s' →
      index b ≠ i → view s' i = view s i)
    (hdistinct : pairs.Pairwise fun pair pair' => index pair.2 ≠ index pair'.2)
    (h : applyAll apply pairs s = .ok () s') {pair : α × β} (hp : pair ∈ pairs) {c : γ}
    (hc : view s (index pair.2) = some c) :
    view s' (index pair.2) = some (change pair.1 c) := by
  -- an address that comes later is untouched so far, one that came first is never touched again
  have huntouched : ∀ (pairs : List (α × β)) {s s' : Store} {i : Nat},
      applyAll apply pairs s = .ok () s' → (∀ pair ∈ pairs, index pair.2 ≠ i) →
      view s' i = view s i := by
    intro pairs
    induction pairs with
    | nil =>
      intro s s' i h _
      cases h
      rfl
    | cons pair pairs ih =>
      intro s s' i h hne
      obtain ⟨_, s1, hhead, htail⟩ := bind_eq_ok.mp h
      rw [ih htail fun pair hp => hne pair (.tail _ hp), hother hhead (hne _ (.head _))]
  induction pairs generalizing s with
  | nil => cases hp
  | cons first pairs ih =>
    obtain ⟨hfirst, hrest⟩ := List.pairwise_cons.mp hdistinct
    obtain ⟨_, s1, hhead, htail⟩ := bind_eq_ok.mp h
    rcases List.mem_cons.mp hp with rfl | hp
    · rw [huntouched pairs htail fun pair' hp' => (hfirst pair' hp').symm]
      exact hself hhead hc
    · refine ih hrest htail hp ?_
      rw [hother hhead (hfirst pair hp)]
      exact hc

end Views

end Instance

namespace Store

theorem data_of_allocate (ha : s.allocate m bindings limit = .ok (inst, home, s1))
    (hi : m.data[i]? = some segment) : s1.data[s.data.size + i]? = some ⟨segment.bytes, false⟩ := by
  obtain ⟨r, tables, memories, -, -, -, hresult⟩ := allocate_eq_addInstance ha
  rw [addInstance_eq] at hresult
  cases hresult
  rw [getElem?_append_add, List.getElem?_map, Array.getElem?_toList, hi]
  rfl

theorem mem_zip_freshAddrs {α β : Type} (mk : Nat → β) (start : Nat) {xs : Array α} {x : α}
    (hi : xs[i]? = some x) :
    (x, mk (start + i)) ∈ xs.toList.zip (freshAddrs mk start xs.size).toList := by
  have hlt := (Array.getElem?_eq_some_iff.mp hi).1
  refine List.mem_iff_getElem?.mpr ⟨i, List.getElem?_zip_eq_some.mpr ⟨?_, ?_⟩⟩
  · rw [Array.getElem?_toList]
    exact hi
  · rw [Array.getElem?_toList, getElem?_freshAddrs _ _ hlt]

theorem segments_of_applySegments (ha : s.allocate m bindings limit = .ok (inst, home, s1))
    (hs : inst.applySegments s1 = .ok () s2) :
    (∀ (i : Nat) (segment : ElementSegment), m.elements[i]? = some segment →
      ∃ addr, inst.elems[i]? = some addr ∧ s2.elems[addr.index]? =
        some (segment.applied (·.eval s inst.funcs inst.importedGlobals))) ∧
    ∀ (i : Nat) (segment : DataSegment), m.data[i]? = some segment →
      ∃ addr, inst.data[i]? = some addr ∧
        s2.data[addr.index]? = some ⟨segment.bytes, segment.mode.isActive⟩ := by
  have hallocated := allocated_of_allocate ha
  obtain ⟨_, s', helements, hdata⟩ := bind_eq_ok.mp hs
  rw [hallocated.module, hallocated.elems] at helements
  rw [hallocated.module, hallocated.data] at hdata
  constructor
  · intro i segment hi
    have hlt := (Array.getElem?_eq_some_iff.mp hi).1
    refine ⟨⟨s.elems.size + i⟩, ?_, ?_⟩
    · rw [hallocated.elems, getElem?_freshAddrs _ _ hlt]
    · -- element segments are applied first, and data segments leave them alone
      have hkept : s2.elems = s'.elems := by
        refine Instance.view_applyAll_eq Store.elems ?_ hdata
        intro segment addr s s' h
        obtain ⟨s1, he, -, rfl⟩ := Instance.applyData_eq_ok h
        split
        · exact he
        · exact he
      rw [hkept, ElementSegment.applied]
      refine Instance.view_applyAll (fun s i => s.elems[i]?) ElemAddr.index
        (fun segment entries => if segment.mode = .passive then entries else #[]) ?_ ?_
        (pairwise_zip_freshAddrs ElemAddr.index (fun _ => rfl) _ _) helements
        (mem_zip_freshAddrs ElemAddr.mk s.elems.size hi) (hallocated.entries i segment hi)
      · intro segment addr s s' entries h he
        obtain ⟨s1, hsame, -, rfl⟩ := applyElement_eq_ok h
        split
        · rw [hsame, he]
        · rw [dropElem, hsame, getElem?_setIfInBounds_some he, if_pos rfl]
      · intro segment addr s s' i h hne
        exact elems_applyElement h hne
  · intro i segment hi
    have hlt := (Array.getElem?_eq_some_iff.mp hi).1
    refine ⟨⟨s.data.size + i⟩, ?_, ?_⟩
    · rw [hallocated.data, getElem?_freshAddrs _ _ hlt]
    · have hkept : s'.data = s1.data := by
        refine Instance.view_applyAll_eq Store.data ?_ helements
        intro segment addr s s' h
        obtain ⟨s1, -, hd, rfl⟩ := applyElement_eq_ok h
        split
        · exact hd
        · exact hd
      have hfirst : s'.data[s.data.size + i]? = some ⟨segment.bytes, false⟩ := by
        rw [hkept]
        exact data_of_allocate ha hi
      refine (Instance.view_applyAll (fun s i => s.data[i]?) DataAddr.index
        (fun segment d => if segment.mode.isActive then { d with dropped := true } else d) ?_ ?_
        (pairwise_zip_freshAddrs DataAddr.index (fun _ => rfl) _ _) hdata
        (mem_zip_freshAddrs DataAddr.mk s.data.size hi) hfirst).trans ?_
      · intro segment addr s s' d h hd
        obtain ⟨s1, -, hsame, rfl⟩ := Instance.applyData_eq_ok h
        split
        · rw [dropData, hsame, Array.getElem?_modify, if_pos rfl, hd]
          rfl
        · rw [hsame, hd]
      · intro segment addr s s' i h hne
        obtain ⟨s1, -, hsame, rfl⟩ := Instance.applyData_eq_ok h
        split
        · rw [dropData, hsame, Array.getElem?_modify, if_neg hne]
        · rw [hsame]
      · cases segment.mode.isActive with
        | true | false => rfl

end Store

/-! ## Who drops a segment -/

/-- The segments of a store are the same in another one. -/
structure Store.KeepsSegments (s s' : Store) : Prop where
  elems : ∀ addr : ElemAddr, addr.index < s.elems.size →
    s'.elems[addr.index]? = s.elems[addr.index]?
  data : ∀ addr : DataAddr, addr.index < s.data.size → s'.data[addr.index]? = s.data[addr.index]?

theorem Store.KeepsSegments.of_eq (h : s'.elems = s.elems ∧ s'.data = s.data) :
    s.KeepsSegments s' :=
  ⟨fun _ _ => by rw [h.1], fun _ _ => by rw [h.2]⟩

theorem Store.TouchedBy.segments_eq (h : s.TouchedBy inst s') :
    (∀ addr : ElemAddr, (∀ i : Nat, inst.elems[i]? ≠ some addr) →
      s'.elems[addr.index]? = s.elems[addr.index]?) ∧
    ∀ addr : DataAddr, (∀ i : Nat, inst.data[i]? ≠ some addr) →
      s'.data[addr.index]? = s.data[addr.index]? := by
  induction h with
  | refl => exact ⟨fun _ _ => rfl, fun _ _ => rfl⟩
  | tail _ hlast ih =>
    obtain ⟨op, hby⟩ := hlast
    exact ⟨fun addr hne => (hby.elems_eq fun i _ => hne i).trans (ih.1 addr hne),
      fun addr hne => (hby.data_eq fun i _ => hne i).trans (ih.2 addr hne)⟩

namespace Store

variable {strict : Prop}

theorem keepsSegments_of_touched (ha : s.allocate m bindings limit = .ok (inst, home, s1))
    (ht : s1.TouchedBy inst s2) : s.KeepsSegments s2 := by
  have hadded : ∃ elems data, s1.elems = s.elems ++ elems ∧ s1.data = s.data ++ data := by
    obtain ⟨r, tables, memories, -, -, -, hresult⟩ := allocate_eq_addInstance ha
    rw [addInstance_eq] at hresult
    cases hresult
    exact ⟨_, _, rfl, rfl⟩
  obtain ⟨elems, data, helems, hdata⟩ := hadded
  obtain ⟨hes, hds⟩ := ht.segments_eq
  constructor
  · intro addr hlt
    rw [hes addr, helems, Array.getElem?_append_left hlt]
    intro i hi
    have hfresh : addr.index = s.elems.size + i := (SegmentKind.elements.fresh ha i addr hi).1
    omega
  · intro addr hlt
    rw [hds addr, hdata, Array.getElem?_append_left hlt]
    intro i hi
    have hfresh : addr.index = s.data.size + i := (SegmentKind.data.fresh ha i addr hi).1
    omega

theorem Act.keepsSegments (h : s.Act strict makes s2) : s.KeepsSegments s2 := by
  cases h with
  | addFunc | addMemory | addTable | addGlobal | clearTrace | setGlobal | forget =>
    exact .of_eq ⟨rfl, rfl⟩
  | onMemory hop hx =>
    exact (settles_onMemory hop.settles fun _ _ => KeepsSegments.of_eq ⟨rfl, rfl⟩).ok hx
  | onTable hop hx =>
    exact (settles_onTable hop.settles fun _ _ => KeepsSegments.of_eq ⟨rfl, rfl⟩).ok hx
  | place _ ha hs => exact keepsSegments_of_touched ha (works_applySegments _ |>.ok hs)
  | fail _ _ ha hs =>
    obtain ⟨hes, hds⟩ := keepsSegments_of_touched ha (works_applySegments _ |>.error hs)
    exact ⟨hes, hds⟩

end Store

namespace World

variable {strict : Prop} {w' : World}

/-- Code of the instance does this operation next. -/
def Executes (w : World) (inst : Instance) (op : BasicOp) : Prop :=
  ∃ f callers room, w.running = some ⟨.frame f, callers, room⟩ ∧ f.inst = inst ∧
    f.func.code[f.pc]? = some (.basic op)

theorem Next.of_executes {op : BasicOp} (h : Next strict makes w w') (hx : w.Executes inst op) :
    ∃ f callers room, f.inst = inst ∧ f.func.code[f.pc]? = some (.basic op) ∧
      w'.store = (Machine.step w.store ⟨.frame f, callers, room⟩).store := by
  obtain ⟨f, callers, room, hrunning, hinst, hop⟩ := hx
  cases h with
  | act hout =>
    cases hrunning
    exact hout.elim
  | turn | call => cases hrunning
  | step =>
    cases hrunning
    exact ⟨f, callers, room, hinst, hop, rfl⟩

theorem Next.eq_or_changes (h : Next strict makes w w') :
    (∃ f callers room, w.running = some ⟨.frame f, callers, room⟩ ∧ f.Changes w.store w'.store) ∨
    w.store.KeepsSegments w'.store := by
  cases h with
  | act _ ha => exact .inr ha.keepsSegments
  | turn => exact .inr (.of_eq ⟨rfl, rfl⟩)
  | @call s func type args _ _ depth =>
    refine .inr (.of_eq ?_)
    rw [Machine.store_call]
    exact ⟨rfl, rfl⟩
  | @step s mc hmc =>
    have halters := mc.step_alters s
    generalize (mc.step s).store = s' at halters
    cases halters with
    | none | report => exact .inr (.of_eq ⟨rfl, rfl⟩)
    | change => cases hmc
    | frame hchanges => exact .inl ⟨_, _, _, rfl, hchanges⟩

section Dropping

variable (h : Next strict makes w w')
include h

theorem Next.elems_eq (hs : Sole .elements w inst) {addr : ElemAddr}
    (hi : inst.elems[i]? = some addr) (hx : ¬ w.Executes inst (.elemDrop i)) :
    w'.store.elems[addr.index]? = w.store.elems[addr.index]? := by
  obtain ⟨hlt, hsole⟩ := hs i addr hi
  rcases h.eq_or_changes with ⟨f, callers, room, hrunning, op, hop, hby⟩ | hkeeps
  · -- a frame that drops the segment lists it, so the frame is one of this instance
    refine hby.elems_eq fun j hdrop hj => hx ?_
    obtain ⟨hinst, rfl⟩ := hsole f.inst j (.inr ⟨_, hrunning, .inl ⟨f, rfl, rfl⟩⟩) hj
    exact ⟨f, callers, room, hrunning, hinst, hdrop ▸ hop⟩
  · exact hkeeps.elems addr hlt

theorem Next.data_eq (hs : Sole .data w inst) (hi : inst.data[i]? = some addr)
    (hx : ¬ w.Executes inst (.dataDrop i)) :
    w'.store.data[addr.index]? = w.store.data[addr.index]? := by
  obtain ⟨hlt, hsole⟩ := hs i addr hi
  rcases h.eq_or_changes with ⟨f, callers, room, hrunning, op, hop, hby⟩ | hkeeps
  · refine hby.data_eq fun j hdrop hj => hx ?_
    obtain ⟨hinst, rfl⟩ := hsole f.inst j (.inr ⟨_, hrunning, .inl ⟨f, rfl, rfl⟩⟩) hj
    exact ⟨f, callers, room, hrunning, hinst, hdrop ▸ hop⟩
  · exact hkeeps.data addr hlt

theorem Next.elems_drop (hs : Sole .elements w inst) {addr : ElemAddr}
    (hi : inst.elems[i]? = some addr) (hx : w.Executes inst (.elemDrop i)) :
    w'.store.elems[addr.index]? = some #[] := by
  obtain ⟨f, callers, room, rfl, hop, hstore⟩ := h.of_executes hx
  have hstep : f.step w.store = .ok (.next { f with pc := f.pc + 1 }) (w.store.dropElem addr) := by
    rw [Frame.step, hop]
    simp only [Op.exec, BasicOp.exec, hi]
    rfl
  have hlt : addr.index < w.store.elems.size := (hs i addr hi).1
  rw [hstore, Machine.step, hstep]
  show (w.store.elems.setIfInBounds addr.index #[])[addr.index]? = some #[]
  rw [Array.getElem?_setIfInBounds_self, if_pos hlt]

theorem Next.data_drop (hi : inst.data[i]? = some addr) (hx : w.Executes inst (.dataDrop i)) :
    w'.store.data[addr.index]? =
      w.store.data[addr.index]?.map fun d => { d with dropped := true } := by
  obtain ⟨f, callers, room, rfl, hop, hstore⟩ := h.of_executes hx
  have hstep : f.step w.store = .ok (.next { f with pc := f.pc + 1 }) (w.store.dropData addr) := by
    rw [Frame.step, hop]
    simp only [Op.exec, BasicOp.exec, hi]
    rfl
  rw [hstore, Machine.step, hstep]
  show (w.store.data.modify addr.index _)[addr.index]? = _
  rw [Array.getElem?_modify, if_pos rfl]

end Dropping

end World

/-! ## Copying from a segment -/

namespace Frame

variable {f : Frame}

/-- The next step copies these entries to a table, or traps. -/
def CopiesEntries (f : Frame) (s : Store) (entries : Array (Option Ref)) (table : Nat) : Prop :=
  ∀ (addr : TableAddr) (t : TableInst) (dst src len : Nat) (rest : List Value),
    f.inst.tables[table]? = some addr → s.tables[addr.index]? = some t →
    popRange f.operands = (dst, src, len, rest) →
    if src + len ≤ entries.size ∧ dst + len ≤ t.table.size then
      ∃ table', f.step s = .ok (.next { f with pc := f.pc + 1, operands := rest })
          { s with tables := s.tables.setIfInBounds addr.index { t with table := table' } } ∧
        table'.maximum = t.table.maximum ∧
        ∀ k, table'.entries[k]? =
          if dst ≤ k ∧ k < dst + len then entries[src + (k - dst)]? else t.table.entries[k]?
    else f.step s = .error .tableOutOfBounds s

/-- The next step copies these bytes to a memory, or traps. -/
def CopiesBytes (f : Frame) (s : Store) (bytes : ByteArray) (memory : Nat) : Prop :=
  ∀ (addr : MemoryAddr) (m : Memory) (dst src len : Nat) (rest : List Value),
    f.inst.memories[memory]? = some addr → s.memories[addr.index]? = some m →
    popRange f.operands = (dst, src, len, rest) →
    if src + len ≤ bytes.size ∧ dst + len ≤ m.byteLength then
      ∃ m', f.step s = .ok (.next { f with pc := f.pc + 1, operands := rest })
          { s with memories := s.memories.setIfInBounds addr.index m' } ∧
        m'.maximum = m.maximum ∧ m'.pageCap = m.pageCap ∧ m'.pageCount = m.pageCount ∧
        ∀ k, m'.byteAt k =
          if dst ≤ k ∧ k < dst + len then bytes.data[src + (k - dst)]?.getD 0 else m.byteAt k
    else f.step s = .error .outOfBounds s

theorem copiesEntries_of_tableInit {elem table : Nat}
    (hop : f.func.code[f.pc]? = some (.basic (.tableInit elem table))) :
    f.CopiesEntries s (f.elemEntries s elem) table := by
  intro addr t dst src len rest haddr ht hrange
  have hpastes := pastes_tableInit hop hrange haddr ht
  unfold PastesEntries at hpastes
  split at hpastes
  case isTrue hfits =>
    obtain ⟨table', hstep, h⟩ := hpastes
    rw [if_pos hfits]
    exact ⟨table', hstep, h.maximum, h.entries⟩
  case isFalse hfits =>
    rw [if_neg hfits]
    exact hpastes

theorem copiesBytes_of_memoryInit {data memory : Nat}
    (hop : f.func.code[f.pc]? = some (.basic (.memoryInit data memory))) :
    f.CopiesBytes s (f.dataContents s data) memory := by
  intro addr m dst src len rest haddr hm hrange
  have hpastes := pastes_memoryInit hop hrange haddr hm
  unfold PastesBytes at hpastes
  split at hpastes
  case isTrue hfits =>
    obtain ⟨m', hstep, h⟩ := hpastes
    rw [if_pos hfits]
    exact ⟨m', hstep, h.maximum, h.pageCap, h.pageCount, h.byteAt⟩
  case isFalse hfits =>
    rw [if_neg hfits]
    exact hpastes

end Frame

/-! ## The life of a segment -/

namespace World

variable {strict : Prop} {options : CompileOptions} {binary : ByteArray}

/-- **The life of a segment.**  When the segments have been applied, the active and declarative ones
    are gone and the passive ones whole; from then on a segment changes exactly when the code of its
    instance drops it, and is empty for good. -/
theorem life_of_segments (hw : Reachable makes w) (hm : Module.compile options binary = .ok m)
    (ha : w.store.allocate m bindings limit = .ok (inst, home, s1))
    (hs : inst.applySegments s1 = .ok () s2) :
    (∀ (i : Nat) (segment : ElementSegment), m.elements[i]? = some segment →
      ∃ addr, inst.elems[i]? = some addr ∧ s2.elems[addr.index]? =
        some (segment.applied (·.eval w.store inst.funcs inst.importedGlobals))) ∧
    (∀ (i : Nat) (segment : DataSegment), m.data[i]? = some segment →
      ∃ addr, inst.data[i]? = some addr ∧
        s2.data[addr.index]? = some ⟨segment.bytes, segment.mode.isActive⟩) ∧
    (∀ (fuel : Nat) (home' : InstanceAddr) (s' : Store),
      w.store.instantiate fuel m bindings limit = (.ok home', s') →
      Later makes ⟨s2, none⟩ ⟨s', none⟩ ∧ (m.start = none → s' = s2)) ∧
    ∀ w1 : World, Later makes ⟨s2, w.running⟩ w1 → (∀ w2 : World, Next False makes w1 w2 →
        (∀ (i : Nat) (addr : ElemAddr), inst.elems[i]? = some addr →
          (w1.Executes inst (.elemDrop i) → w2.store.elems[addr.index]? = some #[]) ∧
          (¬ w1.Executes inst (.elemDrop i) →
            w2.store.elems[addr.index]? = w1.store.elems[addr.index]?)) ∧
        ∀ (i : Nat) (addr : DataAddr), inst.data[i]? = some addr →
          (w1.Executes inst (.dataDrop i) → w2.store.data[addr.index]? =
            w1.store.data[addr.index]?.map fun d => { d with dropped := true }) ∧
          (¬ w1.Executes inst (.dataDrop i) →
            w2.store.data[addr.index]? = w1.store.data[addr.index]?)) ∧
      (∀ w2 : World, Later makes w1 w2 →
        (∀ (i : Nat) (addr : ElemAddr), inst.elems[i]? = some addr →
          w1.store.elems[addr.index]? = some #[] → w2.store.elems[addr.index]? = some #[]) ∧
        ∀ (i : Nat) (addr : DataAddr) (bytes : ByteArray), inst.data[i]? = some addr →
          w1.store.data[addr.index]? = some ⟨bytes, true⟩ →
          w2.store.data[addr.index]? = some ⟨bytes, true⟩) ∧
      ∀ (f : Frame) (callers : List Activation) (room : Nat),
        w1.running = some ⟨.frame f, callers, room⟩ → f.inst = inst →
        (∀ (elem table : Nat) (addr : ElemAddr) (entries : Array (Option Ref)),
          f.func.code[f.pc]? = some (.basic (.tableInit elem table)) →
          inst.elems[elem]? = some addr → w1.store.elems[addr.index]? = some entries →
          f.CopiesEntries w1.store entries table) ∧
        ∀ (data memory : Nat) (addr : DataAddr) (bytes : ByteArray) (dropped : Bool),
          f.func.code[f.pc]? = some (.basic (.memoryInit data memory)) →
          inst.data[data]? = some addr → w1.store.data[addr.index]? = some ⟨bytes, dropped⟩ →
          f.CopiesBytes w1.store (if dropped then .empty else bytes) memory := by
  obtain ⟨helements, hdata⟩ := Store.segments_of_applySegments ha hs
  refine ⟨helements, hdata, ?_, ?_⟩
  · intro fuel home' s' hinst
    obtain ⟨inst', s1', s2', ha', hs', hlater, -, hstart⟩ := exists_of_instantiate makes hm hinst
    cases ha.symm.trans ha'
    cases hs.symm.trans hs'
    exact ⟨hlater, hstart⟩
  · intro w1 hlater
    have hes : Sole .elements w1 inst := hlater.sole (sole_of_allocate hw ha hs)
    have hds : Sole .data w1 inst := hlater.sole (sole_of_allocate hw ha hs)
    refine ⟨?_, ?_, ?_⟩
    · intro w2 hnext
      exact ⟨fun i addr hi => ⟨hnext.elems_drop hes hi, hnext.elems_eq hes hi⟩,
        fun i addr hi => ⟨hnext.data_drop hi, hnext.data_eq hds hi⟩⟩
    · intro w2 hlater'
      have hdev := hlater'.develops
      exact ⟨fun i addr _ hempty => (hdev.elems addr #[] hempty).elim id id,
        fun i addr bytes _ hdropped => (hdev.data addr _ hdropped).elim id id⟩
    · rintro f callers room - rfl
      constructor
      · intro elem table addr entries hop haddr hentries
        have hcopies := Frame.copiesEntries_of_tableInit (s := w1.store) hop
        simp only [Frame.elemEntries, haddr, hentries, Option.getD_some] at hcopies
        exact hcopies
      · intro data memory addr bytes dropped hop haddr hbytes
        have hcopies := Frame.copiesBytes_of_memoryInit (s := w1.store) hop
        simp only [Frame.dataContents, haddr, hbytes] at hcopies
        exact hcopies

def dropping : ByteArray :=
  ⟨#[0x00, 0x61, 0x73, 0x6D, 0x01, 0x00, 0x00, 0x00,
    0x01, 0x04, 0x01, 0x60, 0x00, 0x00, 0x03, 0x03, 0x02, 0x00, 0x00, 0x04, 0x04, 0x01, 0x70,
    0x00, 0x01, 0x07, 0x08, 0x01, 0x04, 0x69, 0x6E, 0x69, 0x74, 0x00, 0x01, 0x08, 0x01, 0x00,
    0x09, 0x05, 0x01, 0x01, 0x00, 0x01, 0x00, 0x0A, 0x14, 0x02, 0x05, 0x00, 0xFC, 0x0D, 0x00,
    0x0B, 0x0C, 0x00, 0x41, 0x00, 0x41, 0x00, 0x41, 0x01, 0xFC, 0x0C, 0x00, 0x00, 0x0B]⟩

/-- A passive segment holds its function until it is dropped. -/
theorem life_of_segments_dropping : ∃ (m : Module) (inst : Instance) (home : InstanceAddr)
    (s1 s2 : Store) (addr : ElemAddr), Module.compile .standard dropping = .ok m ∧
    Store.empty.allocate m [] 16 = .ok (inst, home, s1) ∧
    inst.applySegments s1 = .ok () s2 ∧
    inst.elems[0]? = some addr ∧ s2.elems[addr.index]? = some #[some (.func ⟨0⟩)] ∧
    ∀ w1 w2 : World, Later (fun _ => True) ⟨s2, none⟩ w1 → Next False (fun _ => True) w1 w2 →
      ¬ w1.Executes inst (.elemDrop 0) →
      w2.store.elems[addr.index]? = w1.store.elems[addr.index]? := by
  have hrun : ∃ m, Module.compile .standard dropping = .ok m ∧
      ∃ made, Store.empty.allocate m [] 16 = .ok made ∧
      ∃ u s2, made.1.applySegments made.2.2 = .ok u s2 ∧
      ∃ addr, made.1.elems[0]? = some addr ∧ s2.elems[addr.index]? = some #[some (.func ⟨0⟩)] := by
    decide +kernel
  obtain ⟨m, hm, ⟨inst, home, s1⟩, ha, ⟨⟩, s2, hs, addr, haddr, hitems⟩ := hrun
  have hw : Reachable (fun _ => True) initial := Relation.ReflTransGen.refl
  obtain ⟨-, -, -, hlife⟩ := life_of_segments hw hm ha hs
  exact ⟨m, inst, home, s1, s2, addr, hm, ha, hs, haddr, hitems,
    fun w1 w2 hlater hnext => (((hlife w1 hlater).1 w2 hnext).1 0 addr haddr).2⟩

/-- **Right after an instantiation a passive segment need not hold its items**: the start function
    has run. -/
theorem passive_segment_gone : ¬ ∀ (m : Module) (home : InstanceAddr) (s' : Store)
    (inst : Instance), Module.compile .standard dropping = .ok m →
    Store.empty.instantiate 8 m [] 16 = (.ok home, s') → s'.instance? home = some inst →
    ∀ (i : Nat) (segment : ElementSegment), m.elements[i]? = some segment →
      segment.mode = .passive → ∃ addr, inst.elems[i]? = some addr ∧ s'.elems[addr.index]? =
        some (segment.items.map fun item =>
          Ref.ofValue? (item.eval .empty inst.funcs inst.importedGlobals)) := by
  have hrun : ∃ m, Module.compile .standard dropping = .ok m ∧
      ∃ s', Store.empty.instantiate 8 m [] 16 = (.ok ⟨0⟩, s') ∧
      ∃ inst, s'.instance? ⟨0⟩ = some inst ∧ ∃ segment, m.elements[0]? = some segment ∧
      ∃ addr, inst.elems[0]? = some addr ∧
        segment.mode = .passive ∧ segment.items.size = 1 ∧ s'.elems[addr.index]? = some #[] := by
    decide +kernel
  obtain ⟨m, hm, s', hi, inst, hinst, segment, hsegment, addr, haddr, hmode, hsize, hempty⟩ := hrun
  intro hclaim
  obtain ⟨addr', haddr', hitems⟩ := hclaim m ⟨0⟩ s' inst hm hi hinst 0 segment hsegment hmode
  cases haddr.symm.trans haddr'
  have hsizes := congrArg Array.size (Option.some.inj (hempty.symm.trans hitems))
  rw [Array.size_map, hsize] at hsizes
  cases hsizes

end World

end Wasm
