import Wasm.Proofs.Machine.Changes
import Wasm.Proofs.Store.Hosting
import Wasm.Proofs.Typed.Views

/-! # Running operations on typed values

In a typed store an operation leads to a frame with the view that it makes (`BasicOp.Alters.exec`).
-/

namespace Wasm

open List IndexSpaces
open Shape
open LocalSlot (typeAt?)

variable {s0 : Store} {addr : TableAddr} {f : Frame} {vs : List Value} {rest : List Shape}

variable {v : Value} {element : ValueType} {len index dst src : Nat} {ref : GlobalRef}
  {shapes : List Shape}

/-! ## Typed stores -/

theorem Ref.of_ofValue? (h : v.type? = some element) : Ref.Of element (Ref.ofValue? v) := by
  cases v with
  | funcRef f | externRef f =>
    cases f with
    | none => trivial
    | some f => exact (Option.some.inj h).symm
  | _ => trivial

theorem Ref.type?_toValue (entry : Option Ref) (h : element.isRef = true) :
    (Ref.toValue entry element).type? = some element := by
  cases element with
  | funcRef | externRef =>
    unfold Ref.toValue
    dsimp only
    split
    · rfl
    · rfl
  | _ => cases h

/-- What the store holds is of its types: the globals, and if `strict` tables and element segments.
    Code reads an entry of the wrong kind as null. -/
structure Store.Typed (strict : Prop) (s : Store) : Prop where
  globals : ∀ g ∈ s.globals, g.value.type? = some g.type.content
  tables : strict → ∀ t ∈ s.tables, ∀ entry ∈ t.table.entries, Ref.Of t.element entry
  elems : strict → ∀ (addr : InstanceAddr) (inst : Instance), s.instance? addr = some inst →
    ∀ (i : Nat) (segment : ElementSegment) (a : ElemAddr) (entries : Array (Option Ref)),
      inst.module.elements[i]? = some segment → inst.elems[i]? = some a →
      s.elems[a.index]? = some entries → ∀ entry ∈ entries, Ref.Of segment.type entry

/-- A typed store with the same objects as another. -/
structure Store.Evolves (strict : Prop) (s0 s : Store) : Prop where
  agrees : s0.Agrees s
  typed : s.Typed strict

namespace Store

variable {strict : Prop} {s : Store}

theorem Agrees.element? (h : s0.Agrees s) (addr : TableAddr) :
    s.element? addr = s0.element? addr := by
  rw [Store.element?, Store.element?, h.tables]

theorem Agrees.globalType? (h : s0.Agrees s) (addr : GlobalAddr) :
    s.globalType? addr = s0.globalType? addr := by
  rw [Store.globalType?, Store.globalType?, h.globals]

namespace Evolves

variable (h : s0.Evolves strict s)
include h

theorem withMemories {memories : Array Memory} (hs : memories.size = s.memories.size) :
    s0.Evolves strict { s with memories } :=
  ⟨{ h.agrees with memories := hs.trans h.agrees.memories }, h.typed.globals, h.typed.tables,
    h.typed.elems⟩

theorem dropData (addr : DataAddr) : s0.Evolves strict (s.dropData addr) :=
  ⟨h.agrees.trans (s.agrees_dropData addr), h.typed.globals, h.typed.tables, h.typed.elems⟩

theorem dropElem (addr : ElemAddr) : s0.Evolves strict (s.dropElem addr) where
  agrees := h.agrees.trans (s.agrees_dropElem addr)
  typed :=
    { h.typed with
      elems := by
        intro hstrict home inst hinst i segment a entries hsegment ha hentries entry hentry
        simp only [Store.dropElem, Array.getElem?_setIfInBounds] at hentries
        split at hentries
        · split at hentries
          · cases hentries
            exact absurd hentry (by simp)
          · cases hentries
        · exact h.typed.elems hstrict home inst hinst i segment a entries hsegment ha hentries entry
            hentry }

theorem setGlobal {addr : GlobalAddr} {type : GlobalType} {value : Value}
    (ht : s0.globalType? addr = some type) (hv : value.type? = some type.content) :
    s0.Evolves strict (s.setGlobal addr value) where
  agrees := h.agrees.trans (s.agrees_setGlobal addr value)
  typed :=
    { h.typed with
      globals := by
        intro g hg
        rw [← h.agrees.globalType?, Store.globalType?, Array.getElem?_map] at ht
        obtain ⟨i, hi⟩ := Array.mem_iff_getElem?.mp hg
        simp only [Store.setGlobal, Array.getElem?_modify] at hi
        split at hi
        · next heq =>
            subst heq
            obtain ⟨g0, hg0, rfl⟩ := Option.map_eq_some_iff.mp hi
            rw [hg0] at ht
            cases ht
            exact hv
        · exact h.typed.globals g (Array.mem_of_getElem? hi) }

theorem setTable {t : TableInst} (ht : s.tables[addr.index]? = some t) {table : Table Ref}
    (hentries : strict → ∀ entry ∈ table.entries, Ref.Of t.element entry) :
    s0.Evolves strict { s with tables := s.tables.setIfInBounds addr.index { t with table } } where
  agrees := h.agrees.trans (agrees_setTable ht table)
  typed :=
    { h.typed with
      tables := by
        intro hstrict u hu
        rcases Array.mem_or_eq_of_mem_setIfInBounds hu with hu | rfl
        · exact h.typed.tables hstrict u hu
        · exact hentries hstrict }

end Evolves

end Store

/-! ## Steps of operations -/

def Maintains {α : Type} (P : Store → Prop) (x : StoreM α) (Q : α → Prop) : Prop :=
  ∀ s a s', P s → x s = .ok a s' → P s' ∧ Q a

namespace Maintains

variable {α β : Type} {P : Store → Prop} {Q : α → Prop} {R : β → Prop}

theorem pure {a : α} (h : Q a) : Maintains P (Pure.pure a) Q := by
  rintro s _ _ hs ⟨⟩
  exact ⟨hs, h⟩

theorem throw (t : Trap) : Maintains P (MonadExcept.throw t : StoreM α) Q := by
  intro s a s' hs hx
  cases hx

theorem get : Maintains P (MonadState.get : StoreM Store) P := by
  rintro s _ _ hs ⟨⟩
  exact ⟨hs, hs⟩

theorem changing {f : Store → Store} (h : ∀ s, P s → P (f s)) :
    Maintains P (modify f : StoreM PUnit) fun _ => True := by
  rintro s _ _ hs ⟨⟩
  exact ⟨h s hs, trivial⟩

theorem lift (x : Except Trap α) : Maintains P (Frame.lift x) fun a => x = .ok a := by
  cases x with
  | ok a => exact .pure rfl
  | error t => exact .throw t

theorem bind {x : StoreM α} {f : α → StoreM β} (hx : Maintains P x Q)
    (hf : ∀ a, Q a → Maintains P (f a) R) : Maintains P (x >>= f) R := by
  intro s b s' hs hb
  obtain ⟨a, s1, ha, hb⟩ := bind_eq_ok.mp hb
  obtain ⟨hs1, hq⟩ := hx s a s1 hs ha
  exact hf a hq s1 b s' hs1 hb

theorem ite {c : Prop} [Decidable c] {x y : StoreM α} (hx : Maintains P x Q)
    (hy : Maintains P y Q) : Maintains P (if c then x else y) Q := by
  split
  · exact hx
  · exact hy

end Maintains

/-! ### Tables -/

namespace Table

variable {ρ : Type} {P : Option ρ → Prop} {t t' : Table ρ}

def All (P : Option ρ → Prop) (t : Table ρ) : Prop := ∀ entry ∈ t.entries, P entry

theorem All.overwrite (h : t.All P) {entries : List (Option ρ)} (he : ∀ entry ∈ entries, P entry)
    (start : Nat) : (t.overwrite start entries).All P := by
  induction entries generalizing t start with
  | nil => exact h
  | cons e entries ih =>
    obtain ⟨hhead, htail⟩ := forall_mem_cons.mp he
    refine ih (fun entry hentry => ?_) htail _
    rcases Array.mem_or_eq_of_mem_setIfInBounds hentry with hentry | rfl
    · exact h entry hentry
    · exact hhead

theorem All.guarded (h : t.All P) {entries : List (Option ρ)} (he : ∀ entry ∈ entries, P entry)
    {start : Nat} (hx : guarded start len (·.overwrite start entries) t = .ok () t') :
    t'.All P := by
  unfold Table.guarded at hx
  split at hx
  · cases hx
    exact h.overwrite he start
  · cases hx

theorem mem_of_mem_extract {entries : Array (Option ρ)} {entry : Option ρ} {i j : Nat}
    (h : entry ∈ (entries.extract i j).toList) : entry ∈ entries := by
  rw [Array.mem_toList_iff, Array.mem_extract_iff_getElem] at h
  obtain ⟨k, hk, rfl⟩ := h
  exact Array.getElem_mem _

variable (h : t.All P)
include h

theorem All.slice (start len : Nat) : ∀ entry ∈ t.slice start len, P entry :=
  fun entry hentry => h entry (mem_of_mem_extract hentry)

theorem All.set {entry : Option ρ} (he : P entry) (hx : Table.set index entry t = .ok () t') :
    t'.All P :=
  h.guarded (by simpa using he) hx

theorem All.fill {entry : Option ρ} (he : P entry) (hx : Table.fill dst entry len t = .ok () t') :
    t'.All P :=
  h.guarded (fun _ hmem => (eq_of_mem_replicate hmem).symm ▸ he) hx

theorem All.copyFrom {source : Table ρ} (hs : source.All P)
    (hx : Table.copyFrom source dst src len t = .ok () t') : t'.All P := by
  unfold Table.copyFrom at hx
  split at hx
  · exact h.guarded (hs.slice src len) hx
  · cases hx

theorem All.copy (hx : Table.copy dst src len t = .ok () t') : t'.All P :=
  h.copyFrom h (copy_eq ▸ hx)

theorem All.init {segment : Array (Option ρ)} (hs : ∀ entry ∈ segment, P entry)
    (hx : Table.init dst segment src len t = .ok () t') : t'.All P := by
  unfold Table.init at hx
  split at hx
  · exact h.guarded (fun entry hentry => hs entry (mem_of_mem_extract hentry)) hx
  · cases hx

theorem All.grow {delta : Nat} {entry : Option ρ} (he : P entry) {old : Int}
    (hx : Table.grow delta entry t = .ok old t') : t'.All P := by
  unfold Table.grow at hx
  dsimp only at hx
  split at hx
  · cases hx
    intro e hmem
    rcases Array.mem_append.mp hmem with hmem | hmem
    · exact h e hmem
    · exact (Array.eq_of_mem_replicate hmem).symm ▸ he
  · cases hx
    exact h

end Table

namespace Store

variable {strict : Prop} {α : Type}

theorem maintains_onMemory (addr : MemoryAddr) (op : MemoryM α) :
    Maintains (s0.Evolves strict) (onMemory addr op) fun _ => True := by
  intro s a s' hs hx
  refine ⟨?_, trivial⟩
  rw [onMemory_eq] at hx
  split at hx
  · cases hx
  · split at hx
    · cases hx
      exact hs.withMemories Array.size_setIfInBounds
    · cases hx

theorem maintains_onTable {op : TableM Ref α} (he : s0.element? addr = some element)
    (hop : strict → ∀ t a t', Table.All (Ref.Of element) t → op t = .ok a t' →
      t'.All (Ref.Of element)) :
    Maintains (s0.Evolves strict) (onTable addr op) fun _ => True := by
  intro s a s' hs hx
  refine ⟨?_, trivial⟩
  rw [← hs.agrees.element?, element?, Array.getElem?_map] at he
  rw [onTable_eq] at hx
  split at hx
  · cases hx
  · next t ht =>
      rw [ht] at he
      cases he
      split at hx
      · next hrun =>
          cases hx
          exact hs.setTable ht fun hstrict =>
            hop hstrict _ _ _ (hs.typed.tables hstrict t (Array.mem_of_getElem? ht)) hrun
      · cases hx

end Store

/-! ### Frames in a store -/

/-- A frame of an instance with its objects. -/
structure Frame.Housed (strict : Prop) (f : Frame) (s : Store) : Prop where
  present : strict → ∃ home, s.instance? home = some f.inst
  placed : f.inst.Placed s
  consistent : f.inst.module.Consistent

namespace Frame

variable {strict : Prop}

variable {type : GlobalType}

theorem Housed.global (h : f.Housed strict s0)
    (ht : f.inst.module.spaces.globalAt? ref = some type) :
    ∃ addr, f.inst.global? ref = some addr ∧ s0.globalType? addr = some type := by
  cases ref with
  | imported index =>
    rw [globalAt?] at ht
    split at ht
    · next hlt =>
        obtain ⟨addr, haddr, hglobal⟩ := h.placed.globals index type ht
        rw [globalRef, isImportedGlobal, decide_eq_true hlt] at haddr
        exact ⟨addr, haddr, hglobal⟩
    · cases ht
  | defined index =>
    obtain ⟨addr, haddr, hglobal⟩ := h.placed.globals _ type ht
    rw [globalRef, isImportedGlobal,
      decide_eq_false (Nat.not_lt.mpr (Nat.le_add_right _ _)), Nat.add_sub_cancel_left] at haddr
    exact ⟨addr, haddr, hglobal⟩

theorem maintains_memoryAddr (f : Frame) (index : Nat) :
    Maintains (s0.Evolves strict) (f.memoryAddr index) fun _ => True := by
  unfold memoryAddr
  split
  · exact .pure trivial
  · exact .throw _

theorem maintains_memory (f : Frame) (index : Nat) :
    Maintains (s0.Evolves strict) (f.memory index) fun _ => True := by
  refine (f.maintains_memoryAddr index).bind fun addr _ => Maintains.get.bind fun s _ => ?_
  split
  · exact .pure trivial
  · exact .throw _

theorem maintains_tableAddr (h : f.Housed strict s0) {type : TableType}
    (ht : f.inst.module.spaces.tables[index]? = some type) :
    Maintains (s0.Evolves strict) (f.tableAddr index)
      fun addr => s0.element? addr = some type.element := by
  obtain ⟨addr, haddr, helement⟩ := h.placed.tables index type ht
  unfold tableAddr
  rw [haddr]
  exact .pure helement

theorem maintains_table (h : f.Housed strict s0) {type : TableType}
    (ht : f.inst.module.spaces.tables[index]? = some type) :
    Maintains (s0.Evolves strict) (f.table index) fun t =>
      t.element = type.element ∧ (strict → t.table.All (Ref.Of type.element)) := by
  refine (maintains_tableAddr h ht).bind fun addr haddr => Maintains.get.bind fun s hs => ?_
  rw [← hs.agrees.element?, Store.element?, Array.getElem?_map] at haddr
  split
  · next t htable =>
      rw [htable] at haddr
      have heq : t.element = type.element := Option.some.inj haddr
      exact .pure ⟨heq, fun hstrict =>
        heq ▸ hs.typed.tables hstrict t (Array.mem_of_getElem? htable)⟩
  · exact .throw _

theorem maintains_globalGet (h : f.Housed strict s0)
    (ht : f.inst.module.spaces.globalAt? ref = some type) :
    Maintains (s0.Evolves strict) (f.globalGet ref) fun v => v.type? = some type.content := by
  obtain ⟨addr, haddr, hglobal⟩ := h.global ht
  unfold globalGet
  rw [haddr]
  refine Maintains.get.bind fun s hs => ?_
  rw [← hs.agrees.globalType?, Store.globalType?, Array.getElem?_map] at hglobal
  split
  · next g hg =>
      rw [hg] at hglobal
      cases hglobal
      exact .pure (hs.typed.globals g (Array.mem_of_getElem? hg))
  · next hnone =>
      rw [hnone] at hglobal
      cases hglobal

end Frame

/-! ## Operators -/

theorem except_map_eq_ok {ε α β : Type} {x : Except ε α} {f : α → β} {b : β}
    (h : x.map f = .ok b) : ∃ a, b = f a := by
  cases x with
  | ok a =>
    cases h
    exact ⟨a, rfl⟩
  | error e => cases h

theorem Value.type?_ofFloat (w : FloatWidth) (x : FloatDatum) :
    (Value.ofFloat w x).type? = some w.type := by
  cases w <;> rfl

theorem BinaryOp.type?_apply {op : BinaryOp} {lhs rhs : Value}
    (hl : lhs.type? = some op.operandType) (hr : rhs.type? = some op.operandType)
    (h : op.apply lhs rhs = .ok v) : v.type? = some op.resultType := by
  cases op with
  | int w op =>
    cases w with
    | w32 | w64 =>
      cases lhs <;> cases hl
      cases rhs <;> cases hr
      obtain ⟨a, rfl⟩ := except_map_eq_ok h
      rfl
  | intCompare w op | float w op | floatCompare w op =>
    cases w with
    | w32 | w64 =>
      cases lhs <;> cases hl
      cases rhs <;> cases hr
      cases h
      rfl

theorem UnaryOp.type?_apply {op : UnaryOp} {operand : Value} (h : op.apply operand = .ok v) :
    v.type? = some op.resultType := by
  cases op with
  | int w _ | eqz w | extendLow w _ | bitsOfFloat w | floatOfBits w =>
    cases w with
    | w32 | w64 =>
      cases h
      rfl
  | wrap | demote | promote =>
    cases h
    rfl
  | extend sign =>
    cases sign with
    | signed | unsigned =>
      cases h
      rfl
  | trunc target _ _ =>
    cases target with
    | w32 | w64 =>
      obtain ⟨a, rfl⟩ := except_map_eq_ok h
      rfl
  | truncSat target _ _ =>
    cases target with
    | w32 | w64 =>
      cases h
      rfl
  | float w _ =>
    cases h
    exact Value.type?_ofFloat w _
  | convert target source _ =>
    cases source with
    | w32 | w64 =>
      cases h
      exact Value.type?_ofFloat target _

theorem MemoryAccess.type?_load {access : MemoryAccess} {m : Memory} {addr : Nat}
    (h : access.load m addr = .ok v) : v.type? = some access.type := by
  unfold MemoryAccess.load at h
  split at h
  all_goals first
    | cases h
    | next ht _ =>
      obtain ⟨a, -, ha⟩ := except_bind_eq_ok.mp h
      cases ha
      rw [ht]
      rfl

/-! ## Operations -/

namespace Values

variable {a : Shape}

theorem uncons (h : Values vs (a :: rest)) : ∃ v ws, vs = v :: ws ∧ v.Has a ∧ Values ws rest := by
  obtain ⟨v, ws, hv, hws, heq⟩ := forall₂_cons_right_iff.mp h
  exact ⟨v, ws, heq, hv, hws⟩

theorem uncons_i32 (h : Values vs (one .i32 :: rest)) :
    ∃ w ws, vs = .i32 w :: ws ∧ Values ws rest := by
  obtain ⟨v, ws, heq, hv, hws⟩ := h.uncons
  cases v with
  | i32 w => exact ⟨w, ws, heq, hws⟩
  | _ => cases hv

theorem uncons_range (h : Values vs (one .i32 :: one .i32 :: one .i32 :: rest)) :
    ∃ len src dst ws, vs = .i32 len :: .i32 src :: .i32 dst :: ws ∧ Values ws rest := by
  obtain ⟨len, vs1, rfl, h1⟩ := h.uncons_i32
  obtain ⟨src, vs2, rfl, h2⟩ := h1.uncons_i32
  obtain ⟨dst, ws, rfl, hws⟩ := h2.uncons_i32
  exact ⟨len, src, dst, ws, rfl, hws⟩

end Values

def Frame.Holds (f : Frame) (shapes : List Shape) (f' : Frame) : Prop :=
  ∃ vs, f' = f.withOperands vs ∧ Values vs shapes

namespace Frame

variable {strict : Prop}

theorem maintains_load (access : MemoryAccess) (memory offset : Nat)
    (ho : Values f.operands (one .i32 :: rest)) :
    Maintains (s0.Evolves strict) (f.load access memory offset)
      (f.Holds (one access.type :: rest)) := by
  obtain ⟨w, ws, hops, hws⟩ := ho.uncons_i32
  unfold load
  rw [hops]
  exact (f.maintains_memory memory).bind fun m _ => (Maintains.lift _).bind fun v hv =>
    .pure ⟨_, rfl, .cons (MemoryAccess.type?_load hv) hws⟩

theorem maintains_change (index : Nat) {α : Type} (op : MemoryM α)
    {k : α → Frame} (hk : ∀ a, f.Holds shapes (k a)) :
    Maintains (s0.Evolves strict)
      (f.memoryAddr index >>= fun addr => Store.onMemory addr op >>= fun a => pure (k a))
      (f.Holds shapes) :=
  (f.maintains_memoryAddr index).bind fun addr _ =>
    (Store.maintains_onMemory addr op).bind fun a _ => .pure (hk a)

theorem maintains_store (access : MemoryAccess) (memory offset : Nat)
    (ho : Values f.operands (one access.type :: one .i32 :: rest)) :
    Maintains (s0.Evolves strict) (f.store access memory offset) (f.Holds rest) := by
  obtain ⟨v, vs, hops, -, hvs⟩ := ho.uncons
  obtain ⟨w, ws, rfl, hws⟩ := hvs.uncons_i32
  unfold store
  rw [hops]
  exact f.maintains_change memory _ fun _ => ⟨_, rfl, hws⟩

theorem maintains_memoryCopy (dst src : Nat)
    (ho : Values f.operands (one .i32 :: one .i32 :: one .i32 :: rest)) :
    Maintains (s0.Evolves strict) (f.memoryCopy dst src) (f.Holds rest) := by
  obtain ⟨len, start, place, ws, hops, hws⟩ := ho.uncons_range
  unfold memoryCopy
  rw [hops]
  refine (f.maintains_memoryAddr dst).bind fun d _ => (f.maintains_memoryAddr src).bind fun s _ =>
    .ite ?_ ((f.maintains_memory src).bind fun m _ => ?_)
  all_goals exact (Store.maintains_onMemory d _).bind fun _ _ => .pure ⟨_, rfl, hws⟩

section Tables

variable {table : Nat} {type : TableType} (h : f.Housed strict s0)
  (ht : f.inst.module.spaces.tables[table]? = some type)

include h ht

theorem maintains_tableGet (ho : Values f.operands (one .i32 :: rest)) :
    Maintains (s0.Evolves strict) (f.tableGet table) (f.Holds (one type.element :: rest)) := by
  obtain ⟨w, ws, hops, hws⟩ := ho.uncons_i32
  have href := h.consistent.tableTypes type (Array.mem_of_getElem? ht)
  unfold tableGet
  rw [hops]
  refine (maintains_table h ht).bind fun t hte => (Maintains.lift _).bind fun entry _ =>
    .pure ⟨_, rfl, .cons ?_ hws⟩
  rw [hte.1]
  exact Ref.type?_toValue entry href

theorem maintains_tableSet (ho : Values f.operands (one type.element :: one .i32 :: rest)) :
    Maintains (s0.Evolves strict) (f.tableSet table) (f.Holds rest) := by
  obtain ⟨v, vs, hops, hv, hvs⟩ := ho.uncons
  obtain ⟨w, ws, rfl, hws⟩ := hvs.uncons_i32
  unfold tableSet
  rw [hops]
  refine (maintains_tableAddr h ht).bind fun addr he => ?_
  exact (Store.maintains_onTable he fun _ t a t' hall hx => hall.set (Ref.of_ofValue? hv) hx).bind
    fun _ _ => .pure ⟨_, rfl, hws⟩

theorem maintains_tableGrow (ho : Values f.operands (one .i32 :: one type.element :: rest)) :
    Maintains (s0.Evolves strict) (f.tableGrow table) (f.Holds (one .i32 :: rest)) := by
  obtain ⟨w, vs, hops, hvs⟩ := ho.uncons_i32
  obtain ⟨v, ws, rfl, hv, hws⟩ := hvs.uncons
  unfold tableGrow
  rw [hops]
  refine (maintains_tableAddr h ht).bind fun addr he => ?_
  exact (Store.maintains_onTable he fun _ t a t' hall hx => hall.grow (Ref.of_ofValue? hv) hx).bind
    fun _ _ => .pure ⟨_, rfl, .cons rfl hws⟩

theorem maintains_tableFill
    (ho : Values f.operands (one .i32 :: one type.element :: one .i32 :: rest)) :
    Maintains (s0.Evolves strict) (f.tableFill table) (f.Holds rest) := by
  obtain ⟨len, vs, hops, hvs⟩ := ho.uncons_i32
  obtain ⟨v, us, rfl, hv, hus⟩ := hvs.uncons
  obtain ⟨dst, ws, rfl, hws⟩ := hus.uncons_i32
  unfold tableFill
  rw [hops]
  refine (maintains_tableAddr h ht).bind fun addr he => ?_
  exact (Store.maintains_onTable he fun _ t a t' hall hx => hall.fill (Ref.of_ofValue? hv) hx).bind
    fun _ _ => .pure ⟨_, rfl, hws⟩

theorem maintains_tableCopy {type' : TableType}
    (hs : f.inst.module.spaces.tables[src]? = some type') (he : type.element = type'.element)
    (ho : Values f.operands (one .i32 :: one .i32 :: one .i32 :: rest)) :
    Maintains (s0.Evolves strict) (f.tableCopy table src) (f.Holds rest) := by
  obtain ⟨len, start, place, ws, hops, hws⟩ := ho.uncons_range
  unfold tableCopy
  rw [hops]
  refine (maintains_tableAddr h ht).bind fun d hd => (maintains_tableAddr h hs).bind fun _ _ => ?_
  refine .ite ?_ ?_
  · exact (Store.maintains_onTable hd fun _ t a t' hall hx => hall.copy hx).bind
      fun _ _ => .pure ⟨_, rfl, hws⟩
  · refine (maintains_table h hs).bind fun source hsource => ?_
    rw [← he] at hsource
    exact (Store.maintains_onTable hd fun hstrict t a t' hall hx =>
      hall.copyFrom (hsource.2 hstrict) hx).bind fun _ _ => .pure ⟨_, rfl, hws⟩

theorem maintains_tableInit {elem : Nat} {segment : ElementSegment}
    (hs : f.inst.module.elements[elem]? = some segment) (he : segment.type = type.element)
    (ho : Values f.operands (one .i32 :: one .i32 :: one .i32 :: rest)) :
    Maintains (s0.Evolves strict) (f.tableInit elem table) (f.Holds rest) := by
  obtain ⟨len, src, dst, ws, hops, hws⟩ := ho.uncons_range
  unfold tableInit
  rw [hops]
  refine Maintains.get.bind fun s hevolves => (maintains_tableAddr h ht).bind fun d hd => ?_
  -- what the segment still holds is of its type
  have hentries : strict → ∀ entry ∈ f.elemEntries s elem, Ref.Of type.element entry := by
    intro hstrict entry hentry
    obtain ⟨home, hhome⟩ := h.present hstrict
    unfold elemEntries at hentry
    split at hentry
    · next a ha =>
        cases hheld : s.elems[a.index]? with
        | none =>
          rw [hheld] at hentry
          exact absurd hentry (by simp)
        | some entries =>
          rw [hheld] at hentry
          rw [← hevolves.agrees.instance?] at hhome
          exact he ▸ hevolves.typed.elems hstrict home f.inst hhome elem segment a entries hs ha
            hheld entry hentry
    · exact absurd hentry (by simp)
  exact (Store.maintains_onTable hd fun hstrict t a t' hall hx =>
    hall.init (hentries hstrict) hx).bind fun _ _ => .pure ⟨_, rfl, hws⟩

end Tables

theorem maintains_globalSet (h : f.Housed strict s0) {type : GlobalType}
    (ht : f.inst.module.spaces.globalAt? ref = some type)
    (ho : Values f.operands (one type.content :: rest)) :
    Maintains (s0.Evolves strict) (f.globalSet ref) (f.Holds rest) := by
  obtain ⟨v, ws, hops, hv, hws⟩ := ho.uncons
  obtain ⟨addr, haddr, hglobal⟩ := h.global ht
  unfold globalSet
  rw [hops, haddr]
  exact (Maintains.changing fun s hs => hs.setGlobal hglobal hv).bind fun _ _ => .pure ⟨_, rfl, hws⟩

end Frame

variable {strict : Prop} {op : BasicOp} {a : View}

theorem BasicOp.Fixed.exec {ps rs : List ValueType} (h : op.Fixed f.inst.module ps rs)
    (hh : f.Housed strict s0) (ho : Values f.operands (ones ps.reverse ++ rest)) :
    Maintains (s0.Evolves strict) (op.exec f) fun effect =>
      ∃ f', effect = .next f' ∧ f.Holds (ones rs.reverse ++ rest) f' := by
  have hnext : ∀ {x : StoreM Frame} {shapes : List Shape},
      Maintains (s0.Evolves strict) x (f.Holds shapes) →
      Maintains (s0.Evolves strict) (x >>= fun f' => pure (Effect.next f')) fun effect =>
        ∃ f', effect = .next f' ∧ f.Holds shapes f' :=
    fun hx => hx.bind fun f' hf' => .pure ⟨f', rfl, hf'⟩
  cases h with
  | i32Const | i64Const | f32Const | f64Const | refFunc =>
    exact .pure ⟨_, rfl, _, rfl, .cons rfl ho⟩
  | refNull => exact .pure ⟨_, rfl, _, rfl, .cons (Value.type?_zero _) ho⟩
  | @unary op =>
    obtain ⟨v, vs, hops, -, hvs⟩ := ho.uncons
    rw [BasicOp.exec, hops]
    exact (Maintains.lift _).bind fun r hr =>
      .pure ⟨_, rfl, _, rfl, .cons (UnaryOp.type?_apply hr) hvs⟩
  | @binary op =>
    obtain ⟨b, vs, hops, hb, hvs⟩ := ho.uncons
    obtain ⟨a, ws, rfl, ha, hws⟩ := hvs.uncons
    rw [BasicOp.exec, hops]
    exact (Maintains.lift _).bind fun r hr =>
      .pure ⟨_, rfl, _, rfl, .cons (BinaryOp.type?_apply ha hb hr) hws⟩
  | globalGet ht =>
    exact (Frame.maintains_globalGet hh ht).bind fun v hv => .pure ⟨_, rfl, _, rfl, .cons hv ho⟩
  | globalSet ht => exact hnext (Frame.maintains_globalSet hh ht ho)
  | load _ _ => exact hnext (Frame.maintains_load _ _ _ ho)
  | store _ _ => exact hnext (Frame.maintains_store _ _ _ ho)
  | loadVia hid _ _ =>
    rw [BasicOp.exec, Frame.access, hid]
    exact hnext (Frame.maintains_load _ _ _ ho)
  | storeVia hid _ _ =>
    rw [BasicOp.exec, Frame.access, hid]
    exact hnext (Frame.maintains_store _ _ _ ho)
  | memorySize _ =>
    exact (f.maintains_memory _).bind fun m _ => .pure ⟨_, rfl, _, rfl, .cons rfl ho⟩
  | memoryGrow _ =>
    obtain ⟨w, ws, hops, hws⟩ := ho.uncons_i32
    rw [BasicOp.exec, Frame.memoryGrow, hops]
    exact hnext (f.maintains_change _ _ fun _ => ⟨_, rfl, .cons rfl hws⟩)
  | memoryInit _ _ =>
    obtain ⟨len, src, dst, ws, hops, hws⟩ := ho.uncons_range
    rw [BasicOp.exec, Frame.memoryInit, hops]
    exact hnext (Maintains.get.bind fun s _ => f.maintains_change _ _ fun _ => ⟨_, rfl, hws⟩)
  | memoryCopy _ _ => exact hnext (Frame.maintains_memoryCopy _ _ ho)
  | memoryFill _ =>
    obtain ⟨len, byte, dst, ws, hops, hws⟩ := ho.uncons_range
    rw [BasicOp.exec, Frame.memoryFill, hops]
    exact hnext (f.maintains_change _ _ fun _ => ⟨_, rfl, hws⟩)
  | dataDrop _ =>
    rw [BasicOp.exec]
    split
    · exact (Maintains.changing fun s hs => hs.dropData _).bind
        fun _ _ => .pure ⟨_, rfl, _, rfl, ho⟩
    · exact .pure ⟨_, rfl, _, rfl, ho⟩
  | tableGet ht => exact hnext (Frame.maintains_tableGet hh ht ho)
  | tableSet ht => exact hnext (Frame.maintains_tableSet hh ht ho)
  | tableSize ht =>
    exact (Frame.maintains_table hh ht).bind fun t _ => .pure ⟨_, rfl, _, rfl, .cons rfl ho⟩
  | tableGrow ht => exact hnext (Frame.maintains_tableGrow hh ht ho)
  | tableFill ht => exact hnext (Frame.maintains_tableFill hh ht ho)
  | tableCopy hd hs he => exact hnext (Frame.maintains_tableCopy hh hd hs he ho)
  | tableInit he ht hs => exact hnext (Frame.maintains_tableInit hh ht he hs ho)
  | elemDrop _ =>
    rw [BasicOp.exec]
    split
    · exact (Maintains.changing fun s hs => hs.dropElem _).bind
        fun _ _ => .pure ⟨_, rfl, _, rfl, ho⟩
    · exact .pure ⟨_, rfl, _, rfl, ho⟩

/-! ## What operations lead to -/

def Effect.Lands (s : Store) (f : Frame) (places : List (Nat × View)) : Effect → Prop
  | .next f' => ∃ b, (f'.pc, b) ∈ places ∧ f'.Fits b
  | .call func f' => ∃ type rest slots, s.funcType? func = some type ∧
      (f'.pc, ⟨yields type.results ++ rest, slots⟩) ∈ places ∧
      f'.Fits ⟨ones type.params.reverse ++ rest, slots⟩
  | .leave f' => Values f'.result (yields f.func.type.results)

namespace Frame.Fits

variable {a : View}

theorem withOperands (h : f.Fits a) (hvs : Values vs shapes) :
    (f.withOperands vs).Fits ⟨shapes, a.slots⟩ :=
  ⟨hvs, h.slots⟩

theorem write (h : f.Fits a) {slot : Nat} (hs : slot < f.locals.size) {type : ValueType}
    (hv : v.type? = some type) (hvs : Values vs shapes) :
    Frame.Fits { f with locals := f.locals.setIfInBounds slot v, operands := vs }
      ⟨shapes, ⟨type, slot⟩ :: a.slots⟩ := by
  refine ⟨hvs, fun slot' type' ht => ?_⟩
  rw [LocalSlot.typeAt?_cons] at ht
  show ∃ u, (f.locals.setIfInBounds slot v)[slot']? = some u ∧ u.type? = some type'
  by_cases heq : slot = slot'
  · subst heq
    rw [if_pos rfl] at ht
    cases ht
    exact ⟨v, Array.getElem?_setIfInBounds_self_of_lt hs, hv⟩
  · rw [if_neg heq] at ht
    rw [Array.getElem?_setIfInBounds_ne heq]
    exact h.slots slot' type' ht

theorem result {slots : List LocalSlot} (h : f.Fits ⟨yields f.func.type.results, slots⟩) :
    Values f.result (yields f.func.type.results) := by
  have ho := h.operands
  unfold Frame.result
  match hr : f.func.type.results, ho with
  | [], _ => exact .nil
  | [t], ho =>
    obtain ⟨v, vs, heq, hv, hvs⟩ := ho.uncons
    rw [heq]
    exact .cons hv .nil
  | t :: u :: ts, ho =>
    obtain ⟨v, vs, heq, hv, hvs⟩ := ho.uncons
    rw [heq]
    exact .cons hv .nil

end Frame.Fits

theorem Frame.maintains_indirect (h : f.Housed strict s0) {table : Nat} {type : FuncType}
    {t : TableType} (htype : f.inst.module.spaces.types[index]? = some type)
    (ht : f.inst.module.spaces.tables[table]? = some t) (i : Nat) :
    Maintains (s0.Evolves strict) (f.indirect index table i)
      fun addr => s0.funcType? addr = some type := by
  refine (maintains_table h ht).bind fun _ _ => (Maintains.lift _).bind fun entry _ => ?_
  split
  · exact .throw _
  · exact .throw _
  · refine Maintains.get.bind fun s hs => ?_
    split
    · next heq =>
        rw [htype, hs.agrees.funcType?] at heq
        exact .pure heq
    · exact .throw _

theorem BasicOp.Alters.exec {b : View} (h : op.Alters f.inst.module f.locals.size a b)
    (hh : f.Housed strict s0) (hf : f.Fits a) :
    Maintains (s0.Evolves strict) (op.exec f) (Effect.Lands s0 f [(f.pc, b)]) := by
  have hplace : ∀ b : View, (f.pc, b) ∈ [(f.pc, b)] := fun _ => mem_cons_self
  cases h with
  | fixed h =>
    intro s effect s' hs hx
    obtain ⟨hs', f', rfl, vs, rfl, hvs⟩ := h.exec hh hf.operands s effect s' hs hx
    exact ⟨hs', _, hplace _, hf.withOperands hvs⟩
  | localGet ht =>
    obtain ⟨v, hget, hv⟩ := hf.slots _ _ ht
    rw [BasicOp.exec, hget]
    exact .pure ⟨_, hplace _, hf.withOperands (.cons hv hf.operands)⟩
  | localSet hlt =>
    obtain ⟨v, vs, hops, hv, hvs⟩ := hf.operands.uncons
    rw [BasicOp.exec, hops]
    exact .pure ⟨_, hplace _, hf.write hlt hv hvs⟩
  | localTee hlt =>
    obtain ⟨v, vs, hops, hv, hvs⟩ := hf.operands.uncons
    rw [BasicOp.exec, hops]
    exact .pure ⟨_, hplace _, hf.write hlt hv (.cons hv hvs)⟩
  | drop =>
    obtain ⟨v, vs, hops, -, hvs⟩ := hf.operands.uncons
    rw [BasicOp.exec, hops]
    exact .pure ⟨_, hplace _, hf.withOperands hvs⟩
  | select =>
    obtain ⟨w, us, hops, hus⟩ := hf.operands.uncons_i32
    obtain ⟨second, vs, rfl, hsecond, hvs⟩ := hus.uncons
    obtain ⟨first, ws, rfl, hfirst, hws⟩ := hvs.uncons
    rw [BasicOp.exec, hops]
    refine .pure ⟨_, hplace _, hf.withOperands (.cons ?_ hws)⟩
    show Value.Has (if w ≠ 0 then first else second) _
    split
    · exact hfirst
    · exact hsecond
  | refIsNull _ =>
    obtain ⟨v, vs, hops, -, hvs⟩ := hf.operands.uncons
    rw [BasicOp.exec, hops]
    exact .pure ⟨_, hplace _, hf.withOperands (.cons rfl hvs)⟩
  | call htype =>
    obtain ⟨addr, haddr, hfunc⟩ := hh.placed.funcs _ _ htype
    rw [BasicOp.exec, haddr]
    exact .pure ⟨_, _, _, hfunc, hplace _, hf⟩
  | callIndirect htype ht _ =>
    obtain ⟨w, vs, hops, hvs⟩ := hf.operands.uncons_i32
    rw [BasicOp.exec, hops]
    exact (Frame.maintains_indirect hh htype ht _).bind fun addr haddr =>
      .pure ⟨_, _, _, haddr, hplace _, hf.withOperands hvs⟩
  | @pack carrier rest slots =>
    obtain ⟨us, ws, hops, hus, hws⟩ := Values.append_iff.mp hf.operands
    have hlen : us.length = carrier.fields.length := by
      rw [hus.length_eq, ones, length_map, length_reverse]
    have hfields := hus.reverse
    rw [reverse_reverse, Values.ones_iff] at hfields
    rw [BasicOp.exec, hops, ← hlen, take_left, drop_left]
    exact .pure ⟨_, hplace _, hf.withOperands (.cons ⟨_, rfl, hfields⟩ hws)⟩
  | @unpack carrier rest slots =>
    obtain ⟨v, vs, hops, ⟨fields, rfl, hfields⟩, hvs⟩ := hf.operands.uncons
    have hvalues := (Values.ones_iff.mpr hfields).reverse
    rw [BasicOp.exec, hops]
    exact .pure ⟨_, hplace _, hf.withOperands (rel_append hvalues hvs)⟩

theorem Op.Leads.exec {pc : Nat} {op : Op Nat} {places : List (Nat × View)}
    (h : op.Leads f.inst.module f.func pc a places) (hpc : f.pc = pc + 1)
    (hsize : f.locals.size = f.func.frameSlots) (hh : f.Housed strict s0) (hf : f.Fits a) :
    Maintains (s0.Evolves strict) (op.exec f) (Effect.Lands s0 f places) := by
  cases h with
  | basic h =>
    rw [← hsize] at h
    exact hpc ▸ h.exec hh hf
  | unreachable => exact .throw _
  | ret => exact .pure hf.result
  | jump => exact .pure ⟨_, mem_cons_self, ⟨hf.operands, hf.slots⟩⟩
  | @jumpIf target rest slots =>
    obtain ⟨w, vs, hops, hvs⟩ := hf.operands.uncons_i32
    rw [Op.exec, hops]
    refine .pure ⟨⟨rest, slots⟩, ?_, ⟨hvs, hf.slots⟩⟩
    show (if w ≠ 0 then target else f.pc, _) ∈ _
    split
    · exact mem_cons_self
    · exact hpc ▸ mem_cons_of_mem _ mem_cons_self
  | @jumpUnless target rest slots =>
    obtain ⟨w, vs, hops, hvs⟩ := hf.operands.uncons_i32
    rw [Op.exec, hops]
    refine .pure ⟨⟨rest, slots⟩, ?_, ⟨hvs, hf.slots⟩⟩
    show (if w = 0 then target else f.pc, _) ∈ _
    split
    · exact mem_cons_self
    · exact hpc ▸ mem_cons_of_mem _ mem_cons_self
  | @jumpTable targets default rest slots =>
    obtain ⟨w, vs, hops, hvs⟩ := hf.operands.uncons_i32
    rw [Op.exec, hops]
    refine .pure ⟨⟨rest, slots⟩, mem_map.mpr ⟨_, ?_, rfl⟩, ⟨hvs, hf.slots⟩⟩
    show targets[w.toNat]?.getD default ∈ _
    cases ht : targets[w.toNat]? with
    | none => exact mem_append_right _ mem_cons_self
    | some target => exact mem_append_left _ (Array.mem_of_getElem? ht).val

end Wasm
