import Wasm.Proofs.Typed.Execution

/-! # Operations that find what they need

`Op.Ready`: a frame needs none of the defaults that make the machine total. -/

namespace Wasm

open Shape

namespace Frame

variable (f : Frame) (s : Store)

/-- The top operands are of these types, the top first. -/
def Tops (types : List ValueType) : Prop :=
  ∃ vs rest, f.operands = vs ++ rest ∧ vs.map Value.type? = types.map some

/-- The instance has this memory. -/
def HasMemory (index : Nat) : Prop :=
  ∃ addr m, f.inst.memories[index]? = some addr ∧ s.memories[addr.index]? = some m

/-- The table is there, with entries of its type. -/
def HasTable (index : Nat) : Prop :=
  ∃ addr t, f.inst.tables[index]? = some addr ∧ s.tables[addr.index]? = some t ∧
    t.element.isRef = true ∧ ∀ entry ∈ t.table.entries, Ref.Of t.element entry

/-- The global is there, with a value of its type. -/
def HasGlobal (ref : GlobalRef) : Prop :=
  ∃ addr g, f.inst.global? ref = some addr ∧ s.globals[addr.index]? = some g ∧
    g.value.type? = some g.type.content

/-- The instance has this element segment. -/
def HasElem (index : Nat) : Prop :=
  ∃ addr entries, f.inst.elems[index]? = some addr ∧ s.elems[addr.index]? = some entries

/-- The instance has this data segment. -/
def HasData (index : Nat) : Prop :=
  ∃ addr segment, f.inst.data[index]? = some addr ∧ s.data[addr.index]? = some segment

end Frame

/-- A host function, or one of an instance there. -/
def Store.Callable (s : Store) (addr : FuncAddr) : Prop :=
  match s.funcs[addr.index]? with
  | some (.host _ _) => True
  | some (.wasm type home index) => ∃ inst func, s.instance? home = some inst ∧
      inst.module.functions[index]? = some func ∧ func.type = type
  | none => False

/-- A frame has all that an operation needs. -/
def BasicOp.Ready (s : Store) (f : Frame) : BasicOp → Prop
  | .unreachable | .i32Const _ | .i64Const _ | .f32Const _ | .f64Const _ | .refNull _ => True
  | .ret => Values f.operands (yields f.func.type.results)
  | .call func => ∃ addr type, f.inst.funcs[func]? = some addr ∧ s.funcType? addr = some type ∧
      s.Callable addr ∧ f.Tops type.params.reverse
  | .callIndirect index table => ∃ type, f.inst.module.spaces.types[index]? = some type ∧
      (∀ addr, s.funcType? addr = some type → s.Callable addr) ∧ f.HasTable s table ∧
      f.Tops (.i32 :: type.params.reverse)
  | .drop => ∃ type, f.Tops [type]
  | .select => ∃ type, f.Tops [.i32, type, type]
  | .localGet slot => slot < f.locals.size
  | .localSet slot | .localTee slot => slot < f.locals.size ∧ ∃ type, f.Tops [type]
  | .globalGet ref => f.HasGlobal s ref
  | .globalSet ref => f.HasGlobal s ref ∧ ∃ type, f.Tops [type]
  | .binary op => f.Tops [op.operandType, op.operandType]
  | .unary op => f.Tops [op.operandType]
  | .load access memory _ => access ∈ Decode.loads ∧ f.HasMemory s memory ∧ f.Tops [.i32]
  | .store access memory _ => access ∈ Decode.stores ∧ f.HasMemory s memory ∧
      f.Tops [access.type, .i32]
  | .loadVia id => ∃ access memory offset,
      f.inst.module.accessors.get? id = some ⟨.load access, memory, offset⟩ ∧
      access ∈ Decode.loads ∧ f.HasMemory s memory ∧ f.Tops [.i32]
  | .storeVia id => ∃ access memory offset,
      f.inst.module.accessors.get? id = some ⟨.store access, memory, offset⟩ ∧
      access ∈ Decode.stores ∧ f.HasMemory s memory ∧ f.Tops [access.type, .i32]
  | .memorySize memory => f.HasMemory s memory
  | .memoryGrow memory => f.HasMemory s memory ∧ f.Tops [.i32]
  | .memoryInit data memory => f.HasData s data ∧ f.HasMemory s memory ∧ f.Tops [.i32, .i32, .i32]
  | .dataDrop data => f.HasData s data
  | .memoryCopy dst src => f.HasMemory s dst ∧ f.HasMemory s src ∧ f.Tops [.i32, .i32, .i32]
  | .memoryFill memory => f.HasMemory s memory ∧ f.Tops [.i32, .i32, .i32]
  | .tableGet table => f.HasTable s table ∧ f.Tops [.i32]
  | .tableSet table => f.HasTable s table ∧ ∃ type, type.isRef = true ∧ f.Tops [type, .i32]
  | .tableSize table => f.HasTable s table
  | .tableGrow table => f.HasTable s table ∧ ∃ type, type.isRef = true ∧ f.Tops [.i32, type]
  | .tableFill table => f.HasTable s table ∧ ∃ type, type.isRef = true ∧ f.Tops [.i32, type, .i32]
  | .tableCopy dst src => f.HasTable s dst ∧ f.HasTable s src ∧ f.Tops [.i32, .i32, .i32]
  | .tableInit elem table => f.HasElem s elem ∧ f.HasTable s table ∧ f.Tops [.i32, .i32, .i32]
  | .elemDrop elem => f.HasElem s elem
  | .refIsNull => ∃ type, type.isRef = true ∧ f.Tops [type]
  | .refFunc func => ∃ addr, f.inst.funcs[func]? = some addr
  | .pack carrier => f.Tops carrier.fields.reverse
  | .unpack carrier => ∃ fields rest, f.operands = .bundle fields :: rest ∧
      fields.map Value.type? = carrier.fields.map some

/-- A frame has all that an operation needs. -/
def Op.Ready (s : Store) (f : Frame) : Op Nat → Prop
  | .basic op => op.Ready s f
  | .jump target => target < f.func.code.size
  | .jumpIf target | .jumpUnless target => target < f.func.code.size ∧ f.Tops [.i32]
  | .jumpTable targets default =>
    (∀ target ∈ targets.toList ++ [default], target < f.func.code.size) ∧ f.Tops [.i32]

section Ready

variable {f : Frame} {s : Store} {rest : List Shape}

theorem Values.tops {types : List ValueType} (h : Values f.operands (ones types ++ rest)) :
    f.Tops types := by
  obtain ⟨vs, ws, heq, hvs, -⟩ := append_iff.mp h
  exact ⟨vs, ws, heq, ones_iff.mp hvs⟩

namespace Frame

variable {index : Nat}

variable (h : f.Housed True s)
include h

theorem Housed.hasMemory (hi : index < f.inst.module.spaces.memories.size) :
    f.HasMemory s index := by
  obtain ⟨addr, haddr, hlt⟩ := h.placed.memories index _ (Array.getElem?_eq_getElem hi)
  exact ⟨addr, _, haddr, Array.getElem?_eq_getElem hlt⟩

theorem Housed.hasTable (hs : s.Typed True) {type : TableType}
    (ht : f.inst.module.spaces.tables[index]? = some type) : f.HasTable s index := by
  obtain ⟨addr, haddr, helement⟩ := h.placed.tables index type ht
  rw [Store.element?, Array.getElem?_map, Option.map_eq_some_iff] at helement
  obtain ⟨t, htable, heq⟩ := helement
  refine ⟨addr, t, haddr, htable, ?_, hs.tables trivial t (Array.mem_of_getElem? htable)⟩
  rw [heq]
  exact h.consistent.tableTypes type (Array.mem_of_getElem? ht)

theorem Housed.hasGlobal (hs : s.Typed True) {ref : GlobalRef} {type : GlobalType}
    (ht : f.inst.module.spaces.globalAt? ref = some type) : f.HasGlobal s ref := by
  obtain ⟨addr, haddr, hglobal⟩ := h.global ht
  rw [Store.globalType?, Array.getElem?_map, Option.map_eq_some_iff] at hglobal
  obtain ⟨g, hg, -⟩ := hglobal
  exact ⟨addr, g, haddr, hg, hs.globals g (Array.mem_of_getElem? hg)⟩

theorem Housed.hasElem {segment : ElementSegment}
    (hi : f.inst.module.elements[index]? = some segment) : f.HasElem s index := by
  obtain ⟨addr, haddr, hlt⟩ := h.placed.elems index _ hi
  exact ⟨addr, _, haddr, Array.getElem?_eq_getElem hlt⟩

theorem Housed.hasData (hi : index < f.inst.module.data.size) : f.HasData s index := by
  obtain ⟨addr, haddr, hlt⟩ := h.placed.data index _ (Array.getElem?_eq_getElem hi)
  exact ⟨addr, _, haddr, Array.getElem?_eq_getElem hlt⟩

end Frame

theorem BasicOp.Fixed.ready {op : BasicOp} {ps rs : List ValueType}
    (h : op.Fixed f.inst.module ps rs) (hh : f.Housed True s) (hs : s.Typed True)
    (ho : Values f.operands (ones ps.reverse ++ rest)) : op.Ready s f := by
  have htops : f.Tops ps.reverse := ho.tops
  have href : ∀ {table : Nat} {type : TableType},
      f.inst.module.spaces.tables[table]? = some type → type.element.isRef = true :=
    fun ht => hh.consistent.tableTypes _ (Array.mem_of_getElem? ht)
  cases h with
  | i32Const | i64Const | f32Const | f64Const | refNull => trivial
  | unary | binary => exact htops
  | refFunc ht =>
    obtain ⟨addr, haddr, -⟩ := hh.placed.funcs _ _ ht
    exact ⟨addr, haddr⟩
  | globalGet ht => exact hh.hasGlobal hs ht
  | globalSet ht => exact ⟨hh.hasGlobal hs ht, _, htops⟩
  | load ha hm | store ha hm => exact ⟨ha, hh.hasMemory hm, htops⟩
  | loadVia hid ha hm | storeVia hid ha hm => exact ⟨_, _, _, hid, ha, hh.hasMemory hm, htops⟩
  | memorySize hm => exact hh.hasMemory hm
  | memoryGrow hm | memoryFill hm => exact ⟨hh.hasMemory hm, htops⟩
  | memoryInit hd hm => exact ⟨hh.hasData hd, hh.hasMemory hm, htops⟩
  | dataDrop hd => exact hh.hasData hd
  | memoryCopy hd hm => exact ⟨hh.hasMemory hd, hh.hasMemory hm, htops⟩
  | tableGet ht => exact ⟨hh.hasTable hs ht, htops⟩
  | tableSet ht | tableGrow ht | tableFill ht => exact ⟨hh.hasTable hs ht, _, href ht, htops⟩
  | tableSize ht => exact hh.hasTable hs ht
  | tableCopy hd ht _ => exact ⟨hh.hasTable hs hd, hh.hasTable hs ht, htops⟩
  | tableInit he ht _ => exact ⟨hh.hasElem he, hh.hasTable hs ht, htops⟩
  | elemDrop he => exact hh.hasElem he

theorem Op.Leads.ready {pc : Nat} {op : Op Nat} {a : View} {places : List (Nat × View)}
    (h : op.Leads f.inst.module f.func pc a places) (hsize : f.locals.size = f.func.frameSlots)
    (hh : f.Housed True s) (hs : s.Typed True) (hf : f.Fits a)
    (hcall : ∀ addr type, s.funcType? addr = some type → s.Callable addr)
    (htargets : ∀ target ∈ op.targets, target < f.func.code.size) : op.Ready s f := by
  cases h with
  | basic h =>
    rw [← hsize] at h
    cases h with
    | fixed h => exact h.ready hh hs hf.operands
    | localGet ht =>
      obtain ⟨v, hget, -⟩ := hf.slots _ _ ht
      exact (Array.getElem?_eq_some_iff.mp hget).1
    | localSet hlt | localTee hlt => exact ⟨hlt, _, @Values.tops f _ [_] hf.operands⟩
    | drop => exact ⟨_, @Values.tops f _ [_] hf.operands⟩
    | select => exact ⟨_, @Values.tops f _ [_, _, _] hf.operands⟩
    | refIsNull href => exact ⟨_, href, @Values.tops f _ [_] hf.operands⟩
    | call ht =>
      -- The type that was tracked is the declared one; the instance holds a function of it.
      obtain ⟨addr, haddr, hfunc⟩ := hh.placed.funcs _ _ ht
      exact ⟨addr, _, haddr, hfunc, hcall addr _ hfunc, hf.operands.tops⟩
    | callIndirect htype ht _ =>
      exact ⟨_, htype, fun addr => hcall addr _, hh.hasTable hs ht,
        @Values.tops f _ (_ :: _) hf.operands⟩
    | pack => exact hf.operands.tops
    | unpack =>
      obtain ⟨v, vs, hops, ⟨fields, rfl, hfields⟩, -⟩ := hf.operands.uncons
      exact ⟨fields, vs, hops, hfields⟩
  | unreachable => trivial
  | ret => exact hf.operands
  | jump => exact htargets _ List.mem_cons_self
  | jumpIf | jumpUnless => exact ⟨htargets _ List.mem_cons_self, @Values.tops f _ [_] hf.operands⟩
  | jumpTable => exact ⟨htargets, @Values.tops f _ [_] hf.operands⟩

end Ready

end Wasm
