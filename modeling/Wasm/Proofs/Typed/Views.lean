import Mathlib.Data.List.Forall2
import Wasm.Binary.Opcode
import Wasm.Machine.Run
import Wasm.Proofs.Lowering.Ranges

/-! # Views of a frame

`BasicOp.Alters` says what an operation makes of a view, `Op.Leads` where it leads. -/

namespace Wasm

open List

variable {types : List ValueType} {vs : List Value}

/-! ## Shapes -/

/-- A value of a type, or several results in one. -/
inductive Shape where
  | one (type : ValueType)
  | bundle (types : List ValueType)
deriving DecidableEq

namespace Shape

/-- Single values of these types. -/
def ones (types : List ValueType) : List Shape := types.map one

@[simp] theorem ones_nil : ones [] = [] := rfl

@[simp] theorem ones_cons (t : ValueType) (ts : List ValueType) :
    ones (t :: ts) = one t :: ones ts :=
  rfl

@[simp] theorem ones_append (ts us : List ValueType) : ones (ts ++ us) = ones ts ++ ones us :=
  map_append

/-- What a call with these results leaves. -/
def yields : List ValueType → List Shape
  | [] => []
  | [type] => [one type]
  | types => [bundle types]

theorem yields_of_bundleFor? (h : Carrier.bundleFor? types = none) :
    yields types = ones types.reverse := by
  match types with
  | [] => rfl
  | [_] => rfl
  | _ :: _ :: _ => cases h

theorem yields_of_bundleFor?_some {carrier : Carrier}
    (h : Carrier.bundleFor? types = some carrier) :
    carrier = ⟨types⟩ ∧ yields types = [bundle types] := by
  match types with
  | [] => cases h
  | [_] => cases h
  | _ :: _ :: _ =>
    cases h
    exact ⟨rfl, rfl⟩

end Shape

open Shape

def Value.Has (v : Value) : Shape → Prop
  | .one type => v.type? = some type
  | .bundle types => ∃ fields, v = .bundle fields ∧ fields.map Value.type? = types.map some

theorem Value.Has.unique {v : Value} {a b : Shape} (ha : v.Has a) (hb : v.Has b) : a = b := by
  cases a with
  | one type =>
    cases b with
    | one type' =>
      cases ha.symm.trans hb
      rfl
    | bundle types =>
      obtain ⟨fields, rfl, -⟩ := hb
      cases ha
  | bundle types =>
    obtain ⟨fields, rfl, hfields⟩ := ha
    cases b with
    | one type' => cases hb
    | bundle types' =>
      obtain ⟨_, ⟨⟩, hfields'⟩ := hb
      rw [hfields, List.map_inj_right fun _ _ => Option.some.inj] at hfields'
      rw [hfields']

/-- Values of these shapes, one for one. -/
abbrev Values (vs : List Value) (shapes : List Shape) : Prop := Forall₂ Value.Has vs shapes

namespace Values

theorem ones_iff : Values vs (ones types) ↔ vs.map Value.type? = types.map some := by
  induction types generalizing vs with
  | nil => exact forall₂_nil_right_iff.trans map_eq_nil_iff.symm
  | cons t ts ih =>
    cases vs with
    | nil =>
      constructor
      · intro h; cases h
      · intro h; cases h
    | cons v vs =>
      rw [map_cons, map_cons, List.cons.injEq, ← ih]
      exact forall₂_cons

variable {as bs : List Shape}

theorem unique (ha : Values vs as) (hb : Values vs bs) : as = bs := by
  induction ha generalizing bs with
  | nil =>
    cases hb
    rfl
  | cons hv _ ih =>
    cases hb with
    | cons hv' hb => rw [hv.unique hv', ih hb]

theorem append_iff :
    Values vs (as ++ bs) ↔ ∃ us ws, vs = us ++ ws ∧ Values us as ∧ Values ws bs := by
  constructor
  · intro h
    induction as generalizing vs with
    | nil => exact ⟨[], vs, rfl, .nil, h⟩
    | cons a as ih =>
      cases h with
      | cons hv h =>
        obtain ⟨us, ws, rfl, hus, hws⟩ := ih h
        exact ⟨_ :: us, ws, rfl, .cons hv hus, hws⟩
  · rintro ⟨us, ws, rfl, hus, hws⟩
    exact rel_append hus hws

theorem reverse (h : Values vs (ones types)) : Values vs.reverse (ones types.reverse) := by
  rw [ones_iff] at h ⊢
  rw [map_reverse, map_reverse, h]

theorem pack (h : vs.map Value.type? = types.map some) :
    Values (packResults vs) (yields types) := by
  match vs, types with
  | [], [] => exact .nil
  | [v], [t] => exact .cons (List.cons.inj h).1 .nil
  | v :: v' :: vs, t :: t' :: ts => exact .cons ⟨_, rfl, h⟩ .nil
  | [], _ :: _ | _ :: _, [] | [_], _ :: _ :: _ | _ :: _ :: _, [_] => simp at h

end Values

/-! ## Views -/

/-- The type that a slot is known to hold. -/
def LocalSlot.typeAt? (slots : List LocalSlot) (slot : Nat) : Option ValueType :=
  (slots.find? fun entry => entry.slot = slot).map LocalSlot.type

theorem LocalSlot.typeAt?_cons (entry : LocalSlot) (slots : List LocalSlot) (slot : Nat) :
    typeAt? (entry :: slots) slot = if entry.slot = slot then some entry.type
      else typeAt? slots slot := by
  rw [typeAt?, find?_cons]
  by_cases h : entry.slot = slot
  · rw [decide_eq_true h, if_pos h]
    rfl
  · rw [decide_eq_false h, if_neg h]
    rfl

open LocalSlot (typeAt?)

def LocalSlot.Retains (slots slots' : List LocalSlot) : Prop :=
  ∀ slot type, typeAt? slots slot = some type → typeAt? slots' slot = some type

theorem LocalSlot.Retains.refl (slots : List LocalSlot) : Retains slots slots := fun _ _ h => h

theorem LocalSlot.Retains.write {slots slots' : List LocalSlot} {entry : LocalSlot}
    (h : Retains slots slots') (he : ∀ type, typeAt? slots entry.slot = some type →
      type = entry.type) :
    Retains slots (entry :: slots') := by
  intro slot type ht
  rw [typeAt?_cons]
  by_cases hs : entry.slot = slot
  · subst hs
    rw [if_pos rfl, he type ht]
  · rw [if_neg hs]
    exact h slot type ht

/-- What is known of a frame at some place of its code. -/
structure View where
  operands : List Shape
  slots : List LocalSlot

namespace View

/-- One view says at least what another one does. -/
structure Implies (a b : View) : Prop where
  operands : a.operands = b.operands
  slots : LocalSlot.Retains b.slots a.slots

theorem Implies.refl (a : View) : a.Implies a := ⟨rfl, .refl _⟩

end View

/-- The values of a frame are as a view says. -/
structure Frame.Fits (f : Frame) (view : View) : Prop where
  operands : Values f.operands view.operands
  slots : ∀ slot type, typeAt? view.slots slot = some type →
    ∃ v, f.locals[slot]? = some v ∧ v.type? = some type

theorem Frame.Fits.mono {f : Frame} {a b : View} (h : f.Fits a) (hab : a.Implies b) : f.Fits b where
  operands := hab.operands ▸ h.operands
  slots slot type ht := h.slots slot type (hab.slots slot type ht)

/-! ## What operations make of a view -/

/-- Operations of a type that follows from the module. -/
inductive BasicOp.Fixed (m : Module) : BasicOp → List ValueType → List ValueType → Prop
  | i32Const {value} : Fixed m (.i32Const value) [] [.i32]
  | i64Const {value} : Fixed m (.i64Const value) [] [.i64]
  | f32Const {bits} : Fixed m (.f32Const bits) [] [.f32]
  | f64Const {bits} : Fixed m (.f64Const bits) [] [.f64]
  | unary {op} : Fixed m (.unary op) [op.operandType] [op.resultType]
  | binary {op} : Fixed m (.binary op) [op.operandType, op.operandType] [op.resultType]
  | globalGet {global type} (h : m.spaces.globalAt? global = some type) :
      Fixed m (.globalGet global) [] [type.content]
  | globalSet {global type} (h : m.spaces.globalAt? global = some type) :
      Fixed m (.globalSet global) [type.content] []
  | load {access memory offset} (ha : access ∈ Decode.loads)
    (hm : memory < m.spaces.memories.size) :
      Fixed m (.load access memory offset) [.i32] [access.type]
  | store {access memory offset} (ha : access ∈ Decode.stores)
      (hm : memory < m.spaces.memories.size) :
      Fixed m (.store access memory offset) [.i32, access.type] []
  | loadVia {id access memory offset}
    (h : m.accessors.get? id = some ⟨.load access, memory, offset⟩)
      (ha : access ∈ Decode.loads) (hm : memory < m.spaces.memories.size) :
      Fixed m (.loadVia id) [.i32] [access.type]
  | storeVia {id access memory offset}
      (h : m.accessors.get? id = some ⟨.store access, memory, offset⟩)
      (ha : access ∈ Decode.stores) (hm : memory < m.spaces.memories.size) :
      Fixed m (.storeVia id) [.i32, access.type] []
  | memorySize {memory} (hm : memory < m.spaces.memories.size) :
    Fixed m (.memorySize memory) [] [.i32]
  | memoryGrow {memory} (hm : memory < m.spaces.memories.size) :
      Fixed m (.memoryGrow memory) [.i32] [.i32]
  | memoryInit {data memory} (hd : data < m.data.size) (hm : memory < m.spaces.memories.size) :
      Fixed m (.memoryInit data memory) [.i32, .i32, .i32] []
  | dataDrop {data} (hd : data < m.data.size) : Fixed m (.dataDrop data) [] []
  | memoryCopy {dst src} (hd : dst < m.spaces.memories.size) (hs : src < m.spaces.memories.size) :
      Fixed m (.memoryCopy dst src) [.i32, .i32, .i32] []
  | memoryFill {memory} (hm : memory < m.spaces.memories.size) :
      Fixed m (.memoryFill memory) [.i32, .i32, .i32] []
  | tableGet {table type} (h : m.spaces.tables[table]? = some type) :
      Fixed m (.tableGet table) [.i32] [type.element]
  | tableSet {table type} (h : m.spaces.tables[table]? = some type) :
      Fixed m (.tableSet table) [.i32, type.element] []
  | tableSize {table type} (h : m.spaces.tables[table]? = some type) :
      Fixed m (.tableSize table) [] [.i32]
  | tableGrow {table type} (h : m.spaces.tables[table]? = some type) :
      Fixed m (.tableGrow table) [type.element, .i32] [.i32]
  | tableFill {table type} (h : m.spaces.tables[table]? = some type) :
      Fixed m (.tableFill table) [.i32, type.element, .i32] []
  | tableCopy {dst src type type'} (hd : m.spaces.tables[dst]? = some type)
      (hs : m.spaces.tables[src]? = some type') (he : type.element = type'.element) :
      Fixed m (.tableCopy dst src) [.i32, .i32, .i32] []
  | tableInit {elem table segment type} (he : m.elements[elem]? = some segment)
      (ht : m.spaces.tables[table]? = some type) (hs : segment.type = type.element) :
      Fixed m (.tableInit elem table) [.i32, .i32, .i32] []
  | elemDrop {elem segment} (he : m.elements[elem]? = some segment) : Fixed m (.elemDrop elem) [] []
  | refNull {type} : Fixed m (.refNull type) [] [type]
  | refFunc {func type} (h : m.spaces.funcType func = .ok type) :
      Fixed m (.refFunc func) [] [.funcRef]

/-- What an operation makes of a view; a call leaves results. -/
inductive BasicOp.Alters (m : Module) (size : Nat) : BasicOp → View → View → Prop
  | fixed {op ps rs rest slots} (h : op.Fixed m ps rs) :
      Alters m size op ⟨ones ps.reverse ++ rest, slots⟩ ⟨ones rs.reverse ++ rest, slots⟩
  | localGet {slot type rest slots} (h : typeAt? slots slot = some type) :
      Alters m size (.localGet slot) ⟨rest, slots⟩ ⟨one type :: rest, slots⟩
  | localSet {slot type rest slots} (h : slot < size) :
      Alters m size (.localSet slot) ⟨one type :: rest, slots⟩ ⟨rest, ⟨type, slot⟩ :: slots⟩
  | localTee {slot type rest slots} (h : slot < size) :
      Alters m size (.localTee slot) ⟨one type :: rest, slots⟩
        ⟨one type :: rest, ⟨type, slot⟩ :: slots⟩
  | drop {type rest slots} : Alters m size .drop ⟨one type :: rest, slots⟩ ⟨rest, slots⟩
  | select {type rest slots} :
      Alters m size .select ⟨one .i32 :: one type :: one type :: rest, slots⟩
        ⟨one type :: rest, slots⟩
  | refIsNull {type rest slots} (h : type.isRef = true) :
      Alters m size .refIsNull ⟨one type :: rest, slots⟩ ⟨one .i32 :: rest, slots⟩
  | call {func type rest slots} (h : m.spaces.funcType func = .ok type) :
      Alters m size (.call func) ⟨ones type.params.reverse ++ rest, slots⟩
        ⟨yields type.results ++ rest, slots⟩
  | callIndirect {index table type t rest slots} (h : m.spaces.types[index]? = some type)
      (ht : m.spaces.tables[table]? = some t) (he : t.element = .funcRef) :
      Alters m size (.callIndirect index table)
        ⟨one .i32 :: (ones type.params.reverse ++ rest), slots⟩
        ⟨yields type.results ++ rest, slots⟩
  | pack {carrier : Carrier} {rest slots} :
      Alters m size (.pack carrier) ⟨ones carrier.fields.reverse ++ rest, slots⟩
        ⟨bundle carrier.fields :: rest, slots⟩
  | unpack {carrier : Carrier} {rest slots} :
      Alters m size (.unpack carrier) ⟨bundle carrier.fields :: rest, slots⟩
        ⟨ones carrier.fields.reverse ++ rest, slots⟩

/-- Where an operation leads, with the views there. -/
inductive Op.Leads (m : Module) (func : CompiledFunction) (pc : Nat) :
    Op Nat → View → List (Nat × View) → Prop
  | basic {op a b} (h : op.Alters m func.frameSlots a b) :
    Leads m func pc (.basic op) a [(pc + 1, b)]
  | unreachable {a} : Leads m func pc (.basic .unreachable) a []
  | ret {slots} : Leads m func pc (.basic .ret) ⟨yields func.type.results, slots⟩ []
  | jump {target a} : Leads m func pc (.jump target) a [(target, a)]
  | jumpIf {target rest slots} : Leads m func pc (.jumpIf target) ⟨one .i32 :: rest, slots⟩
        [(target, ⟨rest, slots⟩), (pc + 1, ⟨rest, slots⟩)]
  | jumpUnless {target rest slots} : Leads m func pc (.jumpUnless target) ⟨one .i32 :: rest, slots⟩
        [(target, ⟨rest, slots⟩), (pc + 1, ⟨rest, slots⟩)]
  | jumpTable {targets default rest slots} :
      Leads m func pc (.jumpTable targets default) ⟨one .i32 :: rest, slots⟩
        ((targets.toList ++ [default]).map fun target => (target, ⟨rest, slots⟩))

theorem Op.Leads.exists_place {m : Module} {func : CompiledFunction} {pc : Nat} {op : Op Nat}
    {a : View} {places : List (Nat × View)} (h : op.Leads m func pc a places) :
    ∀ target ∈ op.targets, ∃ b, (target, b) ∈ places := by
  cases h with
  | basic | unreachable | ret => exact forall_mem_nil _
  | jump | jumpIf | jumpUnless => exact forall_mem_singleton.mpr ⟨_, mem_cons_self⟩
  | jumpTable => exact fun target ht => ⟨_, mem_map_of_mem ht⟩

end Wasm
