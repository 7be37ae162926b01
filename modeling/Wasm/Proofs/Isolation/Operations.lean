import Wasm.Proofs.Isolation.Twins
import Wasm.Proofs.Typed.Execution

/-! # Operations of twins

An operation of one instance and the same operation of its twin go in lockstep
(`Op.lockstep_exec`). -/

namespace Wasm

open List

variable {v v' : Value} {e e' : Option Ref} {τ : Twins} {s s' : Store} {vs vs' : List Value}
  {f f' : Frame}

variable {R : FuncAddr → FuncAddr → Prop}

/-! ## Lists side by side -/

variable {α β : Type}

theorem rel_getElem? {Q : α → β → Prop} {l : List α} {l' : List β} (h : Forall₂ Q l l')
    (i : Nat) : Option.Rel Q l[i]? l'[i]? := by
  induction h generalizing i with
  | nil => exact .none
  | cons hq _ ih =>
    cases i with
    | zero => exact .some hq
    | succ i => exact ih i

@[elab_as_elim] theorem rel_cases {Q : α → β → Prop} {o : Option α} {o' : Option β}
    {motive : Option α → Option β → Prop} (h : Option.Rel Q o o') (hnone : motive none none)
    (hsome : ∀ a b, Q a b → motive (some a) (some b)) : motive o o' := by
  cases h with
  | some h => exact hsome _ _ h
  | none => exact hnone

theorem forall₂_set {Q : α → β → Prop} {l : List α} {l' : List β} (h : Forall₂ Q l l')
    (i : Nat) {a : α} {b : β} (hab : Q a b) : Forall₂ Q (l.set i a) (l'.set i b) := by
  induction h generalizing i with
  | nil => exact .nil
  | cons hq hs ih =>
    cases i with
    | zero => exact .cons hab hs
    | succ i => exact .cons hq (ih i)

theorem forall₂_replicate {Q : α → β → Prop} (n : Nat) {a : α} {b : β} (h : Q a b) :
    Forall₂ Q (List.replicate n a) (List.replicate n b) := by
  induction n with
  | zero => exact .nil
  | succ n ih => exact .cons h ih

/-! ## Tables -/

namespace Table

variable {t t' : Table Ref}

theorem Alike.size (h : t.Alike R t') : t'.size = t.size := h.entries.length_eq.symm

theorem Alike.inBounds (h : t.Alike R t') (start len : Nat) :
    t'.inBounds start len = t.inBounds start len := by
  rw [Table.inBounds, Table.inBounds, h.size]

theorem Alike.slice (h : t.Alike R t') (start len : Nat) :
    EntriesAlike R (t.slice start len) (t'.slice start len) := by
  simp only [Table.slice, Array.toList_extract, extract_eq_take_drop]
  exact forall₂_take _ (forall₂_drop _ h.entries)

theorem Alike.overwrite (h : t.Alike R t') (start : Nat) {es es' : List (Option Ref)}
    (he : EntriesAlike R es es') : (t.overwrite start es).Alike R (t'.overwrite start es') := by
  induction he generalizing t t' start with
  | nil => exact h
  | @cons e e' _ _ hhead _ ih =>
    have hset : Alike R { t with entries := t.entries.setIfInBounds start e }
        { t' with entries := t'.entries.setIfInBounds start e' } := by
      refine ⟨h.maximum, ?_⟩
      rw [Array.toList_setIfInBounds, Array.toList_setIfInBounds]
      exact forall₂_set h.entries start hhead
    exact ih hset (start + 1)

theorem lockstep_guarded (start len : Nat) {change change' : Table Ref → Table Ref}
    (h : ∀ t t', t.Alike R t' → (change t).Alike R (change' t')) :
    Lockstep Eq (Alike R) (fun _ _ => True) (guarded start len change)
      (guarded start len change') := by
  intro t t' ht
  simp only [guarded, ht.inBounds]
  split
  · exact .ok trivial (h t t' ht)
  · exact .error rfl ht

theorem lockstep_set (index : Nat) (he : Option.Rel (Ref.Alike R) e e') :
    Lockstep Eq (Alike R) (fun _ _ => True) (set index e) (set index e') :=
  lockstep_guarded _ _ fun _ _ ht => ht.overwrite index (.cons he .nil)

theorem lockstep_fill (dst len : Nat) (he : Option.Rel (Ref.Alike R) e e') :
    Lockstep Eq (Alike R) (fun _ _ => True) (fill dst e len) (fill dst e' len) :=
  lockstep_guarded _ _ fun _ _ ht => ht.overwrite dst (forall₂_replicate len he)

theorem lockstep_copyFrom {source source' : Table Ref} (h : source.Alike R source')
    (dst src len : Nat) :
    Lockstep Eq (Alike R) (fun _ _ => True) (copyFrom source dst src len)
      (copyFrom source' dst src len) := by
  intro t t' ht
  simp only [copyFrom, h.inBounds]
  split
  · exact lockstep_guarded dst len (fun _ _ ht => ht.overwrite dst (h.slice src len)) t t' ht
  · exact .error rfl ht

theorem lockstep_copy (dst src len : Nat) :
    Lockstep Eq (Alike R) (fun _ _ => True) (copy dst src len) (copy dst src len) := by
  intro t t' ht
  rw [copy_eq, copy_eq]
  exact lockstep_copyFrom ht dst src len t t' ht

theorem lockstep_init {es es' : Array (Option Ref)} (h : EntriesAlike R es.toList es'.toList)
    (dst src len : Nat) :
    Lockstep Eq (Alike R) (fun _ _ => True) (init dst es src len) (init dst es' src len) := by
  intro t t' ht
  have hsize : es'.size = es.size := h.length_eq.symm
  have hslice : EntriesAlike R (es.extract src (src + len)).toList
      (es'.extract src (src + len)).toList := by
    simp only [Array.toList_extract, extract_eq_take_drop]
    exact forall₂_take _ (forall₂_drop _ h)
  simp only [init, hsize]
  split
  · exact lockstep_guarded dst len (fun _ _ ht => ht.overwrite dst hslice) t t' ht
  · exact .error rfl ht

theorem lockstep_grow (delta : Nat) (he : Option.Rel (Ref.Alike R) e e') :
    Lockstep Eq (Alike R) Eq (grow delta e) (grow delta e') := by
  intro t t' ht
  simp only [grow, ht.size, ht.maximum]
  split
  · refine .ok rfl ⟨rfl, ?_⟩
    simp only [Array.toList_append, Array.toList_replicate]
    exact rel_append ht.entries (forall₂_replicate delta he)
  · exact .ok rfl ht

theorem Alike.get (h : t.Alike R t') (index : Nat) :
    (∃ e e', t.get index = .ok e ∧ t'.get index = .ok e' ∧ Option.Rel (Ref.Alike R) e e') ∨
      t.get index = .error .tableOutOfBounds ∧ t'.get index = .error .tableOutOfBounds := by
  have hrel := rel_getElem? h.entries index
  rw [Array.getElem?_toList, Array.getElem?_toList] at hrel
  rw [Table.get, Table.get]
  exact rel_cases hrel (.inr ⟨rfl, rfl⟩) fun _ _ he => .inl ⟨_, _, rfl, rfl, he⟩

end Table

/-! ## Values -/

namespace Value.Alike

variable (h : v.Alike R v')
include h

theorem asI32 : v'.asI32 = v.asI32 := by cases h <;> rfl

theorem isNull : v'.isNull = v.isNull := by
  cases h with
  | funcRef h => cases h <;> rfl
  | _ => rfl

theorem ofValue? : Option.Rel (Ref.Alike R) (Ref.ofValue? v) (Ref.ofValue? v') := by
  cases h with
  | funcRef h =>
    cases h with
    | some h => exact .some (.func h)
    | none => exact .none
  | externRef host =>
    cases host with
    | some id => exact .some (.host id)
    | none => exact .none
  | _ => exact .none

theorem store (access : MemoryAccess) (addr : Nat) :
    access.store addr v' = access.store addr v := by
  cases h <;> rfl

theorem unary (op : UnaryOp) : op.apply v' = op.apply v := by
  have h32 : v'.asF32 = v.asF32 := by cases h <;> rfl
  have h64 : v'.asF64 = v.asF64 := by cases h <;> rfl
  have hi64 : v'.asI64 = v.asI64 := by cases h <;> rfl
  simp only [UnaryOp.apply, asFloat, h.asI32, hi64, h32, h64]

theorem binary {w w' : Value} (hw : w.Alike R w') (op : BinaryOp) :
    op.apply v' w' = op.apply v w := by
  cases h <;> cases hw <;> rfl

end Value.Alike

theorem Ref.alike_toValue (h : Option.Rel (Ref.Alike R) e e') (element : ValueType) :
    (Ref.toValue e element).Alike R (Ref.toValue e' element) := by
  cases h with
  | none =>
    cases element with
    | externRef => exact .externRef none
    | _ => exact .funcRef .none
  | some h =>
    cases h with
    | func h =>
      cases element with
      | externRef => exact .externRef none
      | _ => exact .funcRef (.some h)
    | host id =>
      cases element with
      | externRef => exact .externRef (some id)
      | _ => exact .funcRef .none

/-! ## Numbers refer to no function -/

theorem Value.free_of_type? {type : ValueType} (h : v.type? = some type) (hne : type ≠ .funcRef) :
    v.Free := by
  cases v with
  | funcRef =>
    cases h
    exact absurd rfl hne
  | bundle => cases h
  | _ => constructor

theorem UnaryOp.free_apply {op : UnaryOp} {operand : Value} (h : op.apply operand = .ok v) :
    v.Free := by
  refine Value.free_of_type? (UnaryOp.type?_apply h) fun ht => ?_
  cases op with
  | int w _ | float w _ | extendLow w _ | trunc w _ _ | truncSat w _ _ | convert w _ _ =>
    cases w <;> cases ht
  | bitsOfFloat w | floatOfBits w => cases w <;> cases ht
  | _ => cases ht

theorem BinaryOp.free_apply {op : BinaryOp} {lhs rhs : Value} (h : op.apply lhs rhs = .ok v) :
    v.Free := by
  unfold BinaryOp.apply at h
  split at h
  case h_5 =>
    cases h
    constructor
  all_goals
    split at h
    all_goals first
      | obtain ⟨a, rfl⟩ := except_map_eq_ok h
        constructor
      | cases h
        constructor

theorem MemoryAccess.free_load {access : MemoryAccess} {m : Memory} {addr : Nat}
    (h : access.load m addr = .ok v) : v.Free := by
  refine Value.free_of_type? (MemoryAccess.type?_load h) fun ht => ?_
  unfold MemoryAccess.load at h
  rw [ht] at h
  cases h

/-! ## Objects of the store -/

namespace Lockstep

variable {α β : Type}

theorem lift {x : Except Trap Value} (h : ∀ v, x = .ok v → v.Free) :
    Lockstep Eq τ.In τ.SameValue (Frame.lift x) (Frame.lift x) := by
  cases x with
  | ok v => exact .pure (h v rfl).alike
  | error t => exact .throw rfl

theorem onMemory {a a' : MemoryAddr} (ha : Beside τ.inst.memories τ.inst'.memories a a')
    (op : MemoryM α) : Lockstep Eq τ.In Eq (Store.onMemory a op) (Store.onMemory a' op) := by
  intro s s' hs
  obtain ⟨m, _, hm, hm', rfl⟩ := hs.memories a a' ha
  have hset (m1 : Memory) : τ.In { s with memories := s.memories.setIfInBounds a.index m1 }
      { s' with memories := s'.memories.setIfInBounds a'.index m1 } :=
    { hs with
      memories := hs.memories.set τ.memories (fun _ _ h => congrArg MemoryAddr.mk h) ha rfl }
  rw [Store.onMemory_eq, Store.onMemory_eq, hm, hm']
  dsimp only
  cases op m with
  | ok b m1 => exact .ok rfl (hset m1)
  | error t m1 => exact .error rfl (hset m1)

theorem onTable {a a' : TableAddr} (ha : Beside τ.inst.tables τ.inst'.tables a a')
    {Q : α → β → Prop} {op : TableM Ref α} {op' : TableM Ref β}
    (hop : Lockstep Eq (Table.Alike τ.SameFunc) Q op op') :
    Lockstep Eq τ.In Q (Store.onTable a op) (Store.onTable a' op') := by
  intro s s' hs
  obtain ⟨t, t', ht, ht', helement, htable⟩ := hs.tables a a' ha
  have hset {t1 t1' : Table Ref} (h1 : t1.Alike τ.SameFunc t1') :
      τ.In { s with tables := s.tables.setIfInBounds a.index { t with table := t1 } }
        { s' with tables := s'.tables.setIfInBounds a'.index { t' with table := t1' } } :=
    { hs with
      tables := hs.tables.set τ.tables (fun _ _ h => congrArg TableAddr.mk h) ha ⟨helement, h1⟩ }
  rw [Store.onTable_eq, Store.onTable_eq, ht, ht']
  dsimp only
  have hends := hop t.table t'.table htable
  generalize op t.table = r at hends
  generalize op' t'.table = r' at hends
  cases hends with
  | ok hq h1 => exact .ok hq (hset h1)
  | error he h1 => exact .error he (hset h1)

end Lockstep

namespace Twins.In

theorem setGlobal (hs : τ.In s s') {a a' : GlobalAddr}
    (ha : Beside τ.inst.definedGlobals τ.inst'.definedGlobals a a') (hv : τ.SameValue v v') :
    τ.In (s.setGlobal a v) (s'.setGlobal a' v') :=
  { hs with
    globals := hs.globals.modify τ.globals (fun _ _ h => congrArg GlobalAddr.mk h) ha
      fun _ _ hg => ⟨hg.type, hv, hg.owner, hg.owner'⟩ }

theorem dropElem (hs : τ.In s s') {a a' : ElemAddr} (ha : Beside τ.inst.elems τ.inst'.elems a a') :
    τ.In (s.dropElem a) (s'.dropElem a') :=
  { hs with elems := hs.elems.set τ.elems (fun _ _ h => congrArg ElemAddr.mk h) ha .nil }

theorem dropData (hs : τ.In s s') {a a' : DataAddr} (ha : Beside τ.inst.data τ.inst'.data a a') :
    τ.In (s.dropData a) (s'.dropData a') :=
  { hs with
    data := hs.data.modify τ.data (fun _ _ h => congrArg DataAddr.mk h) ha
      fun _ _ hd => congrArg (fun d : DataInst => { d with dropped := true }) hd }

end Twins.In

/-! ## Frames -/

/-- Frames at the same place that hold the same. -/
structure Twins.Frames (τ : Twins) (f f' : Frame) : Prop where
  inst : f.inst = τ.inst
  inst' : f'.inst = τ.inst'
  func : f'.func = f.func
  pc : f'.pc = f.pc
  locals : τ.SameValues f.locals.toList f'.locals.toList
  operands : τ.SameValues f.operands f'.operands

/-- The two frames lead to the same. -/
inductive Twins.Effects (τ : Twins) : Effect → Effect → Prop
  | next {f f' : Frame} (h : τ.Frames f f') : Effects τ (.next f) (.next f')
  | call {g g' : FuncAddr} {f f' : Frame} (hg : τ.SameFunc g g') (h : τ.Frames f f') :
      Effects τ (.call g f) (.call g' f')
  | leave {f f' : Frame} (h : τ.Frames f f') : Effects τ (.leave f) (.leave f')

namespace Twins

variable (h : τ.SameValues vs vs')
include h

theorem same_pop : ∃ v v' rest rest', Frame.pop vs = (v, rest) ∧
    Frame.pop vs' = (v', rest') ∧ τ.SameValue v v' ∧ τ.SameValues rest rest' := by
  cases h with
  | nil => exact ⟨_, _, _, _, rfl, rfl, .i32 0, .nil⟩
  | cons hv hrest => exact ⟨_, _, _, _, rfl, rfl, hv, hrest⟩

theorem same_popI32 : ∃ w rest rest', Frame.popI32 vs = (w, rest) ∧
    Frame.popI32 vs' = (w, rest') ∧ τ.SameValues rest rest' := by
  obtain ⟨v, v', rest, rest', hpop, hpop', hv, hrest⟩ := same_pop h
  refine ⟨v.asI32, rest, rest', ?_, ?_, hrest⟩
  · rw [Frame.popI32, hpop]
  · rw [← hv.asI32, Frame.popI32, hpop']

theorem same_popNat : ∃ n rest rest', Frame.popNat vs = (n, rest) ∧
    Frame.popNat vs' = (n, rest') ∧ τ.SameValues rest rest' := by
  obtain ⟨w, rest, rest', hpop, hpop', hrest⟩ := same_popI32 h
  refine ⟨w.toNat, rest, rest', ?_, ?_, hrest⟩
  · rw [Frame.popNat, hpop]
  · rw [Frame.popNat, hpop']

theorem same_popRange : ∃ dst src len rest rest',
    Frame.popRange vs = (dst, src, len, rest) ∧ Frame.popRange vs' = (dst, src, len, rest') ∧
      τ.SameValues rest rest' := by
  obtain ⟨len, rest, rest', hlen, hlen', hrest⟩ := same_popNat h
  obtain ⟨src, rest1, rest1', hsrc, hsrc', hrest1⟩ := same_popNat hrest
  obtain ⟨dst, rest2, rest2', hdst, hdst', hrest2⟩ := same_popNat hrest1
  refine ⟨dst, src, len, rest2, rest2', ?_, ?_, hrest2⟩
  · simp only [Frame.popRange, hlen, hsrc, hdst]
  · simp only [Frame.popRange, hlen', hsrc', hdst']

end Twins

namespace Twins.Frames

section

variable (h : τ.Frames f f')
include h

theorem withOperands (hvs : τ.SameValues vs vs') :
    τ.Frames (f.withOperands vs) (f'.withOperands vs') :=
  { h with operands := hvs }

theorem write (slot : Nat) (hv : τ.SameValue v v') (hvs : τ.SameValues vs vs') :
    τ.Frames { f with locals := f.locals.setIfInBounds slot v, operands := vs }
      { f' with locals := f'.locals.setIfInBounds slot v', operands := vs' } := by
  refine { h with operands := hvs, locals := ?_ }
  show τ.SameValues (f.locals.setIfInBounds slot v).toList (f'.locals.setIfInBounds slot v').toList
  rw [Array.toList_setIfInBounds, Array.toList_setIfInBounds]
  exact forall₂_set h.locals slot hv

theorem goto (pc : Nat) (hvs : τ.SameValues vs vs') :
    τ.Frames { f with operands := vs, pc } { f' with operands := vs', pc } :=
  { h with operands := hvs, pc := rfl }

theorem memoryAddr (index : Nat) :
    Lockstep Eq τ.In (Beside τ.inst.memories τ.inst'.memories) (f.memoryAddr index)
      (f'.memoryAddr index) := by
  rw [Frame.memoryAddr, Frame.memoryAddr, h.inst, h.inst']
  exact rel_cases (τ.memories.getElem? index) (.throw rfl) fun _ _ => .pure

theorem memory (index : Nat) : Lockstep Eq τ.In Eq (f.memory index) (f'.memory index) := by
  refine (h.memoryAddr index).bind fun a a' ha => Lockstep.get.bind fun s s' hs => ?_
  obtain ⟨m, _, hm, hm', rfl⟩ := hs.memories a a' ha
  rw [hm, hm']
  exact .pure rfl

theorem tableAddr (index : Nat) :
    Lockstep Eq τ.In (Beside τ.inst.tables τ.inst'.tables) (f.tableAddr index)
      (f'.tableAddr index) := by
  rw [Frame.tableAddr, Frame.tableAddr, h.inst, h.inst']
  exact rel_cases (τ.tables.getElem? index) (.throw rfl) fun _ _ => .pure

theorem table (index : Nat) :
    Lockstep Eq τ.In (TableInst.Alike τ.SameFunc) (f.table index) (f'.table index) := by
  refine (h.tableAddr index).bind fun a a' ha => Lockstep.get.bind fun s s' hs => ?_
  obtain ⟨t, t', ht, ht', halike⟩ := hs.tables a a' ha
  rw [ht, ht']
  exact .pure halike

end

theorem entry {t t' : TableInst} (ht : t.Alike τ.SameFunc t') (index : Nat) :
    Lockstep Eq τ.In (Option.Rel (Ref.Alike τ.SameFunc)) (Frame.lift (t.table.get index))
      (Frame.lift (t'.table.get index)) := by
  obtain ⟨e, e', he, he', hrel⟩ | ⟨he, he'⟩ := ht.table.get index
  · rw [he, he']
    exact .pure hrel
  · rw [he, he']
    exact .throw rfl

theorem load (h : τ.Frames f f') (access : MemoryAccess) (memory offset : Nat) :
    Lockstep Eq τ.In τ.Frames (f.load access memory offset) (f'.load access memory offset) := by
  obtain ⟨addr, rest, rest', hpop, hpop', hrest⟩ := same_popNat h.operands
  simp only [Frame.load, hpop, hpop']
  refine (h.memory memory).bind fun m _ hm => ?_
  subst hm
  exact (Lockstep.lift fun v hv => MemoryAccess.free_load hv).bind fun v v' hv =>
    .pure (h.withOperands (.cons hv hrest))

theorem store (h : τ.Frames f f') (access : MemoryAccess) (memory offset : Nat) :
    Lockstep Eq τ.In τ.Frames (f.store access memory offset) (f'.store access memory offset) := by
  obtain ⟨v, v', rest, rest', hpop, hpop', hv, hrest⟩ := same_pop h.operands
  obtain ⟨addr, rest1, rest1', hpop1, hpop1', hrest1⟩ := same_popNat hrest
  simp only [Frame.store, hpop, hpop', hpop1, hpop1', hv.store]
  exact (h.memoryAddr memory).bind fun a a' ha => (Lockstep.onMemory ha _).bind fun _ _ _ =>
    .pure (h.withOperands hrest1)

theorem access (h : τ.Frames f f') (id : Nat) :
    Lockstep Eq τ.In τ.Frames (f.access id) (f'.access id) := by
  rw [Frame.access, Frame.access, h.inst, h.inst', τ.module]
  rcases τ.inst.module.accessors.get? id with _ | ⟨access | access, memory, offset⟩
  · exact .throw rfl
  · exact h.load access memory offset
  · exact h.store access memory offset

theorem indirect (h : τ.Frames f f') (type table index : Nat) :
    Lockstep Eq τ.In τ.SameFunc (f.indirect type table index) (f'.indirect type table index) := by
  refine (h.table table).bind fun t t' ht => (entry ht index).bind fun e e' he => ?_
  cases he with
  | none => exact .throw rfl
  | some he =>
    cases he with
    | host id => exact .throw rfl
    | func hg =>
      -- The type asked for is the module's, and the entry is a function of the twins.
      refine Lockstep.get.bind fun s s' hs => .ite ?_ (.pure hg) (.throw rfl)
      rw [hs.funcType? hg, h.inst, h.inst', τ.module]

variable (h : τ.Frames f f')
include h

theorem dataContents (hs : τ.In s s') (index : Nat) :
    f'.dataContents s' index = f.dataContents s index := by
  rw [Frame.dataContents, Frame.dataContents, h.inst, h.inst']
  refine rel_cases (τ.data.getElem? index) rfl fun a a' ha => ?_
  obtain ⟨d, _, hd, hd', rfl⟩ := hs.data a a' ha
  dsimp only
  rw [hd, hd']

theorem elemEntries (hs : τ.In s s') (index : Nat) :
    EntriesAlike τ.SameFunc (f.elemEntries s index).toList (f'.elemEntries s' index).toList := by
  rw [Frame.elemEntries, Frame.elemEntries, h.inst, h.inst']
  refine rel_cases (τ.elems.getElem? index) .nil fun a a' ha => ?_
  obtain ⟨es, es', he, he', halike⟩ := hs.elems a a' ha
  dsimp only
  rw [he, he']
  exact halike

theorem memoryInit (data memory : Nat) :
    Lockstep Eq τ.In τ.Frames (f.memoryInit data memory) (f'.memoryInit data memory) := by
  obtain ⟨dst, src, len, rest, rest', hpop, hpop', hrest⟩ := same_popRange h.operands
  simp only [Frame.memoryInit, hpop, hpop']
  refine Lockstep.get.bind fun s s' hs => ?_
  rw [h.dataContents hs]
  exact (h.memoryAddr memory).bind fun a a' ha => (Lockstep.onMemory ha _).bind fun _ _ _ =>
    .pure (h.withOperands hrest)

theorem memoryCopy (dstMemory srcMemory : Nat) :
    Lockstep Eq τ.In τ.Frames (f.memoryCopy dstMemory srcMemory)
      (f'.memoryCopy dstMemory srcMemory) := by
  obtain ⟨dst, src, len, rest, rest', hpop, hpop', hrest⟩ := same_popRange h.operands
  simp only [Frame.memoryCopy, hpop, hpop']
  have hdone := h.withOperands hrest
  -- The two places are one memory for both twins or for neither.
  refine (h.memoryAddr dstMemory).bind fun a a' ha => (h.memoryAddr srcMemory).bind fun b b' hb =>
    .ite (τ.memories.eq_iff ha hb) ?_ ?_
  · exact (Lockstep.onMemory ha _).bind fun _ _ _ => .pure hdone
  · refine (h.memory srcMemory).bind fun m _ hm => ?_
    subst hm
    exact (Lockstep.onMemory ha _).bind fun _ _ _ => .pure hdone

theorem memoryFill (memory : Nat) :
    Lockstep Eq τ.In τ.Frames (f.memoryFill memory) (f'.memoryFill memory) := by
  obtain ⟨len, rest, rest', hlen, hlen', hrest⟩ := same_popNat h.operands
  obtain ⟨byte, rest1, rest1', hbyte, hbyte', hrest1⟩ := same_popNat hrest
  obtain ⟨dst, rest2, rest2', hdst, hdst', hrest2⟩ := same_popNat hrest1
  simp only [Frame.memoryFill, hlen, hlen', hbyte, hbyte', hdst, hdst']
  exact (h.memoryAddr memory).bind fun a a' ha => (Lockstep.onMemory ha _).bind fun _ _ _ =>
    .pure (h.withOperands hrest2)

theorem memoryGrow (memory : Nat) :
    Lockstep Eq τ.In τ.Frames (f.memoryGrow memory) (f'.memoryGrow memory) := by
  obtain ⟨delta, rest, rest', hpop, hpop', hrest⟩ := same_popNat h.operands
  simp only [Frame.memoryGrow, hpop, hpop']
  refine (h.memoryAddr memory).bind fun a a' ha =>
    (Lockstep.onMemory ha _).bind fun old _ hold => ?_
  subst hold
  exact .pure (h.withOperands (.cons (.i32 _) hrest))

theorem tableGet (table : Nat) :
    Lockstep Eq τ.In τ.Frames (f.tableGet table) (f'.tableGet table) := by
  obtain ⟨index, rest, rest', hpop, hpop', hrest⟩ := same_popNat h.operands
  simp only [Frame.tableGet, hpop, hpop']
  refine (h.table table).bind fun t t' ht => (entry ht index).bind fun e e' he => ?_
  rw [ht.element]
  exact .pure (h.withOperands (.cons (Ref.alike_toValue he _) hrest))

theorem tableSet (table : Nat) :
    Lockstep Eq τ.In τ.Frames (f.tableSet table) (f'.tableSet table) := by
  obtain ⟨v, v', rest, rest', hpop, hpop', hv, hrest⟩ := same_pop h.operands
  obtain ⟨index, rest1, rest1', hindex, hindex', hrest1⟩ := same_popNat hrest
  simp only [Frame.tableSet, hpop, hpop', hindex, hindex']
  exact (h.tableAddr table).bind fun a a' ha =>
    (Lockstep.onTable ha (Table.lockstep_set index hv.ofValue?)).bind fun _ _ _ =>
      .pure (h.withOperands hrest1)

theorem tableGrow (table : Nat) :
    Lockstep Eq τ.In τ.Frames (f.tableGrow table) (f'.tableGrow table) := by
  obtain ⟨delta, rest, rest', hdelta, hdelta', hrest⟩ := same_popNat h.operands
  obtain ⟨v, v', rest1, rest1', hpop, hpop', hv, hrest1⟩ := same_pop hrest
  simp only [Frame.tableGrow, hdelta, hdelta', hpop, hpop']
  refine (h.tableAddr table).bind fun a a' ha =>
    (Lockstep.onTable ha (Table.lockstep_grow delta hv.ofValue?)).bind fun old _ hold => ?_
  subst hold
  exact .pure (h.withOperands (.cons (.i32 _) hrest1))

theorem tableFill (table : Nat) :
    Lockstep Eq τ.In τ.Frames (f.tableFill table) (f'.tableFill table) := by
  obtain ⟨len, rest, rest', hlen, hlen', hrest⟩ := same_popNat h.operands
  obtain ⟨v, v', rest1, rest1', hpop, hpop', hv, hrest1⟩ := same_pop hrest
  obtain ⟨dst, rest2, rest2', hdst, hdst', hrest2⟩ := same_popNat hrest1
  simp only [Frame.tableFill, hlen, hlen', hpop, hpop', hdst, hdst']
  exact (h.tableAddr table).bind fun a a' ha =>
    (Lockstep.onTable ha (Table.lockstep_fill dst len hv.ofValue?)).bind fun _ _ _ =>
      .pure (h.withOperands hrest2)

theorem tableCopy (dstTable srcTable : Nat) :
    Lockstep Eq τ.In τ.Frames (f.tableCopy dstTable srcTable) (f'.tableCopy dstTable srcTable) := by
  obtain ⟨dst, src, len, rest, rest', hpop, hpop', hrest⟩ := same_popRange h.operands
  simp only [Frame.tableCopy, hpop, hpop']
  have hdone := h.withOperands hrest
  refine (h.tableAddr dstTable).bind fun a a' ha => (h.tableAddr srcTable).bind fun b b' hb =>
    .ite (τ.tables.eq_iff ha hb) ?_ ?_
  · exact (Lockstep.onTable ha (Table.lockstep_copy dst src len)).bind fun _ _ _ => .pure hdone
  · refine (h.table srcTable).bind fun t t' ht => ?_
    have hcopy := Table.lockstep_copyFrom ht.table dst src len
    exact (Lockstep.onTable ha hcopy).bind fun _ _ _ => .pure hdone

theorem tableInit (elem table : Nat) :
    Lockstep Eq τ.In τ.Frames (f.tableInit elem table) (f'.tableInit elem table) := by
  obtain ⟨dst, src, len, rest, rest', hpop, hpop', hrest⟩ := same_popRange h.operands
  simp only [Frame.tableInit, hpop, hpop']
  exact Lockstep.get.bind fun s s' hs => (h.tableAddr table).bind fun a a' ha =>
    (Lockstep.onTable ha (Table.lockstep_init (h.elemEntries hs elem) dst src len)).bind
      fun _ _ _ => .pure (h.withOperands hrest)

theorem globalGet (global : GlobalRef) :
    Lockstep Eq τ.In τ.SameValue (f.globalGet global) (f'.globalGet global) := by
  rw [Frame.globalGet, Frame.globalGet, h.inst, h.inst']
  refine rel_cases (τ.global? global) (.pure (.i32 0)) fun a a' ha =>
    Lockstep.get.bind fun s s' hs => ?_
  obtain ⟨g, g', hg, hg', hsame⟩ := hs.globals a a' ha
  rw [hg, hg']
  exact .pure hsame.value

theorem globalSet (global : GlobalRef) :
    Lockstep Eq τ.In τ.Frames (f.globalSet global) (f'.globalSet global) := by
  obtain ⟨v, v', rest, rest', hpop, hpop', hv, hrest⟩ := same_pop h.operands
  simp only [Frame.globalSet, hpop, hpop', h.inst, h.inst']
  exact rel_cases (τ.global? global) (.pure (h.withOperands hrest)) fun _ _ ha =>
    (Lockstep.changing fun s s' hs => hs.setGlobal ha hv).bind fun _ _ _ =>
      .pure (h.withOperands hrest)

end Twins.Frames

/-! ## Operations -/

namespace Twins

theorem next_of_lockstep {x y : StoreM Frame} (h : Lockstep Eq τ.In τ.Frames x y) :
    Lockstep Eq τ.In τ.Effects (x >>= fun f => pure (.next f)) (y >>= fun f => pure (.next f)) :=
  h.bind fun _ _ hf => .pure (.next hf)

theorem Frames.push (h : τ.Frames f f') (hv : τ.SameValue v v') :
    Lockstep Eq τ.In τ.Effects (pure (.next (f.withOperands (v :: f.operands))) : StoreM Effect)
      (pure (.next (f'.withOperands (v' :: f'.operands)))) :=
  .pure (.next (h.withOperands (.cons hv h.operands)))

theorem Frames.localGet (h : τ.Frames f f') (slot : Nat) :
    τ.SameValue (f.locals[slot]?.getD (.i32 0)) (f'.locals[slot]?.getD (.i32 0)) := by
  have hrel := rel_getElem? h.locals slot
  rw [Array.getElem?_toList, Array.getElem?_toList] at hrel
  exact rel_cases hrel (.i32 0) fun _ _ hv => hv

end Twins

theorem BasicOp.lockstep_exec (h : τ.Frames f f') (op : BasicOp) :
    Lockstep Eq τ.In τ.Effects (op.exec f) (op.exec f') := by
  cases op with
  | localGet slot => exact h.push (h.localGet slot)
  | localSet slot =>
    obtain ⟨v, v', rest, rest', hpop, hpop', hv, hrest⟩ := Twins.same_pop h.operands
    simp only [exec, hpop, hpop']
    exact .pure (.next (h.write slot hv hrest))
  | localTee slot =>
    have hops := h.operands
    simp only [exec]
    generalize f.operands = vs at hops
    generalize f'.operands = vs' at hops
    cases hops with
    | nil => exact .pure (.next h)
    | cons hv hrest => exact .pure (.next (h.write slot hv (.cons hv hrest)))
  | i32Const value => exact h.push (.i32 value)
  | i64Const value => exact h.push (.i64 value)
  | f32Const bits => exact h.push (.f32 bits)
  | f64Const bits => exact h.push (.f64 bits)
  | binary op =>
    obtain ⟨r, r', rest, rest', hpop, hpop', hr, hrest⟩ := Twins.same_pop h.operands
    obtain ⟨l, l', rest1, rest1', hpop1, hpop1', hl, hrest1⟩ := Twins.same_pop hrest
    simp only [exec, hpop, hpop', hpop1, hpop1', hl.binary hr]
    exact (Lockstep.lift fun v hv => BinaryOp.free_apply hv).bind fun v v' hv =>
      .pure (.next (h.withOperands (.cons hv hrest1)))
  | unary op =>
    obtain ⟨w, w', rest, rest', hpop, hpop', hw, hrest⟩ := Twins.same_pop h.operands
    simp only [exec, hpop, hpop', hw.unary]
    exact (Lockstep.lift fun v hv => UnaryOp.free_apply hv).bind fun v v' hv =>
      .pure (.next (h.withOperands (.cons hv hrest)))
  | drop =>
    refine .pure (.next (h.withOperands ?_))
    rw [← drop_one, ← drop_one]
    exact forall₂_drop 1 h.operands
  | select =>
    obtain ⟨c, rest, rest', hc, hc', hrest⟩ := Twins.same_popI32 h.operands
    obtain ⟨v, v', rest1, rest1', hpop, hpop', hv, hrest1⟩ := Twins.same_pop hrest
    obtain ⟨w, w', rest2, rest2', hpop1, hpop1', hw, hrest2⟩ := Twins.same_pop hrest1
    simp only [exec, hc, hc', hpop, hpop', hpop1, hpop1']
    refine .pure (.next (h.withOperands (.cons ?_ hrest2)))
    split
    · exact hw
    · exact hv
  | call func =>
    rw [exec, exec, h.inst, h.inst']
    exact rel_cases (τ.funcs.getElem? func) (.throw rfl) fun _ _ hg => .pure (.call hg h)
  | callIndirect type table =>
    obtain ⟨index, rest, rest', hpop, hpop', hrest⟩ := Twins.same_popNat h.operands
    simp only [exec, hpop, hpop']
    exact (h.indirect type table index).bind fun g g' hg =>
      .pure (.call hg (h.withOperands hrest))
  | ret => exact .pure (.leave h)
  | unreachable => exact .throw rfl
  | globalGet global => exact (h.globalGet global).bind fun _ _ hv => h.push hv
  | globalSet global => exact Twins.next_of_lockstep (h.globalSet global)
  | load access memory offset => exact Twins.next_of_lockstep (h.load access memory offset)
  | store access memory offset => exact Twins.next_of_lockstep (h.store access memory offset)
  | loadVia id | storeVia id => exact Twins.next_of_lockstep (h.access id)
  | memorySize memory =>
    refine (h.memory memory).bind fun m _ hm => ?_
    subst hm
    exact h.push (.i32 _)
  | memoryGrow memory => exact Twins.next_of_lockstep (h.memoryGrow memory)
  | memoryInit data memory => exact Twins.next_of_lockstep (h.memoryInit data memory)
  | dataDrop data =>
    simp only [exec, h.inst, h.inst']
    exact rel_cases (τ.data.getElem? data) (.pure (.next h)) fun _ _ ha =>
      (Lockstep.changing fun s s' hs => hs.dropData ha).bind fun _ _ _ => .pure (.next h)
  | memoryCopy dst src => exact Twins.next_of_lockstep (h.memoryCopy dst src)
  | memoryFill memory => exact Twins.next_of_lockstep (h.memoryFill memory)
  | tableGet table => exact Twins.next_of_lockstep (h.tableGet table)
  | tableSet table => exact Twins.next_of_lockstep (h.tableSet table)
  | tableSize table =>
    refine (h.table table).bind fun t t' ht => ?_
    rw [ht.table.size]
    exact h.push (.i32 _)
  | tableGrow table => exact Twins.next_of_lockstep (h.tableGrow table)
  | tableFill table => exact Twins.next_of_lockstep (h.tableFill table)
  | tableCopy dst src => exact Twins.next_of_lockstep (h.tableCopy dst src)
  | tableInit elem table => exact Twins.next_of_lockstep (h.tableInit elem table)
  | elemDrop elem =>
    simp only [exec, h.inst, h.inst']
    exact rel_cases (τ.elems.getElem? elem) (.pure (.next h)) fun _ _ ha =>
      (Lockstep.changing fun s s' hs => hs.dropElem ha).bind fun _ _ _ => .pure (.next h)
  | refNull type => exact h.push (Value.free_zero type).alike
  | refIsNull =>
    obtain ⟨v, v', rest, rest', hpop, hpop', hv, hrest⟩ := Twins.same_pop h.operands
    simp only [exec, hpop, hpop', hv.isNull]
    exact .pure (.next (h.withOperands (.cons (.i32 _) hrest)))
  | refFunc func =>
    refine h.push (.funcRef ?_)
    rw [h.inst, h.inst']
    exact τ.funcs.getElem? func
  | pack carrier =>
    refine .pure (.next (h.withOperands (.cons (.bundle ?_) (forall₂_drop _ h.operands))))
    exact rel_reverse (forall₂_take _ h.operands)
  | unpack carrier =>
    obtain ⟨v, v', rest, rest', hpop, hpop', hv, hrest⟩ := Twins.same_pop h.operands
    simp only [exec, hpop, hpop']
    cases hv with
    | bundle hfields =>
      exact .pure (.next (h.withOperands (rel_append (rel_reverse hfields) hrest)))
    | _ => exact .pure (.next (h.withOperands hrest))

theorem Op.lockstep_exec (h : τ.Frames f f') (op : Op Nat) :
    Lockstep Eq τ.In τ.Effects (op.exec f) (op.exec f') := by
  cases op with
  | basic op => exact op.lockstep_exec h
  | jump target => exact .pure (.next (h.goto target h.operands))
  | jumpIf target | jumpUnless target =>
    obtain ⟨c, rest, rest', hpop, hpop', hrest⟩ := Twins.same_popI32 h.operands
    simp only [exec, hpop, hpop', h.pc]
    exact .pure (.next (h.goto _ hrest))
  | jumpTable targets default =>
    obtain ⟨index, rest, rest', hpop, hpop', hrest⟩ := Twins.same_popNat h.operands
    simp only [exec, hpop, hpop']
    exact .pure (.next (h.goto _ hrest))

theorem Twins.Frames.step (h : τ.Frames f f') : Lockstep Eq τ.In τ.Effects f.step f'.step := by
  have hcode : f'.func.code[f'.pc]? = f.func.code[f.pc]? := by rw [h.func, h.pc]
  have hnext : τ.Frames { f with pc := f.pc + 1 } { f' with pc := f'.pc + 1 } :=
    { h with pc := congrArg (· + 1) h.pc }
  rw [Frame.step, Frame.step, hcode]
  cases f.func.code[f.pc]? with
  | none => exact .pure (.leave h)
  | some op => exact op.lockstep_exec hnext

end Wasm
