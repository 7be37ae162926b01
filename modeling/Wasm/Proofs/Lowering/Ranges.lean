import Wasm.Module.Basic
import Wasm.Proofs.Lowering.Labels

/-! # What lowered code refers to

What an operation names is there and of the right kind (`BasicOp.InRange`). -/

namespace Wasm

open IndexSpaces

/-! ## Operations in range -/

/-- The type of a global that code refers to. -/
def IndexSpaces.globalAt? (spaces : IndexSpaces) : GlobalRef → Option GlobalType
  | .imported index => if index < spaces.importedGlobals then spaces.globals[index]? else none
  | .defined index => spaces.globals[spaces.importedGlobals + index]?

theorem IndexSpaces.globalAt?_globalRef (spaces : IndexSpaces) (index : Nat) :
    spaces.globalAt? (spaces.globalRef index) = spaces.globals[index]? := by
  unfold globalRef isImportedGlobal
  by_cases h : index < spaces.importedGlobals
  · rw [decide_eq_true h, if_pos rfl, globalAt?, if_pos h]
  · rw [decide_eq_false h, if_neg Bool.false_ne_true, globalAt?,
      Nat.add_sub_cancel' (Nat.le_of_not_lt h)]

/-- What an operation names is there and of the right kind. -/
def BasicOp.InRange (m : Module) (slots : Nat) : BasicOp → Prop
  | .call func | .refFunc func => ∃ type, m.spaces.funcType func = .ok type
  | .callIndirect type table => type < m.spaces.types.size ∧
      ∃ t, m.spaces.tables[table]? = some t ∧ t.element = .funcRef
  | .localGet slot | .localSet slot | .localTee slot => slot < slots
  | .globalGet global => ∃ type, m.spaces.globalAt? global = some type
  | .globalSet global => ∃ type, m.spaces.globalAt? global = some type ∧ type.mutable = true
  | .load _ memory _ | .store _ memory _ | .memorySize memory | .memoryGrow memory
  | .memoryFill memory => memory < m.spaces.memories.size
  | .loadVia id => ∃ access memory offset,
      m.accessors.get? id = some ⟨.load access, memory, offset⟩ ∧ memory < m.spaces.memories.size
  | .storeVia id => ∃ access memory offset,
      m.accessors.get? id = some ⟨.store access, memory, offset⟩ ∧ memory < m.spaces.memories.size
  | .memoryInit data memory => data < m.data.size ∧ memory < m.spaces.memories.size
  | .dataDrop data => data < m.data.size
  | .memoryCopy dst src => dst < m.spaces.memories.size ∧ src < m.spaces.memories.size
  | .tableGet table | .tableSet table | .tableSize table | .tableGrow table | .tableFill table =>
    table < m.spaces.tables.size
  | .tableCopy dst src => ∃ t u, m.spaces.tables[dst]? = some t ∧
      m.spaces.tables[src]? = some u ∧ t.element = u.element
  | .tableInit elem table => ∃ segment t, m.elements[elem]? = some segment ∧
      m.spaces.tables[table]? = some t ∧ segment.type = t.element
  | .elemDrop elem => elem < m.elements.size
  | .unreachable | .ret | .drop | .select | .i32Const _ | .i64Const _ | .f32Const _ | .f64Const _
  | .binary _ | .unary _ | .refNull _ | .refIsNull | .pack _ | .unpack _ => True

variable {m : Module}

variable {slots : Nat} {op : BasicOp} {asm : Assembly}

theorem BasicOp.InRange.grow {accessors accessors' : Accessors} {slots' : Nat}
    (h : op.InRange { m with accessors } slots)
    (hkeys : accessors.keys.toList <+: accessors'.keys.toList) (hslots : slots ≤ slots') :
    op.InRange { m with accessors := accessors' } slots' := by
  cases op with
  | localGet slot | localSet slot | localTee slot => exact Nat.lt_of_lt_of_le h hslots
  | loadVia id | storeVia id =>
    obtain ⟨access, memory, offset, hid, hm⟩ := h
    exact ⟨access, memory, offset, Accessors.get?_mono hkeys hid, hm⟩
  | _ => exact h

/-! ## Instructions -/

/-- The context of a body is that of a module. -/
structure BodyContext.Within (m : Module) (slots : Nat) (ctx : BodyContext) : Prop where
  spaces : ctx.spaces = m.spaces
  elements : ctx.elemTypes = m.elements.map (·.type)
  locals : ∀ (index : Nat) (entry : LocalSlot), ctx.locals[index]? = some entry → entry.slot < slots

namespace BodyContext.Within

variable {m : Module} {slots : Nat} {ctx : BodyContext}

variable {index : Nat}

variable (h : ctx.Within m slots)
include h

theorem slotAt_lt {slot : LocalSlot} (hl : ctx.localAt index = .ok slot) :
    ctx.slotAt index < slots := by
  have hget := lookup_eq_ok.mp hl
  rw [slotAt, hget]
  exact h.locals index slot hget

theorem memory_lt {limits : Limits} (hm : ctx.spaces.memory index = .ok limits) :
    index < m.spaces.memories.size := by
  rw [h.spaces] at hm
  exact (Array.getElem?_eq_some_iff.mp (lookup_eq_ok.mp hm)).1

theorem table {element : ValueType} (ht : ctx.tableElement index = .ok element) :
    ∃ t, m.spaces.tables[index]? = some t ∧ t.element = element := by
  unfold tableElement at ht
  rw [h.spaces] at ht
  obtain ⟨t, hget, heq⟩ := except_bind_eq_ok.mp ht
  cases heq
  exact ⟨t, lookup_eq_ok.mp hget, rfl⟩

theorem table_lt {element : ValueType} (ht : ctx.tableElement index = .ok element) :
    index < m.spaces.tables.size := by
  obtain ⟨t, hget, -⟩ := h.table ht
  exact (Array.getElem?_eq_some_iff.mp hget).1

theorem global {type : GlobalType} (hg : ctx.spaces.global index = .ok type) :
    m.spaces.globalAt? (ctx.spaces.globalRef index) = some type := by
  rw [h.spaces] at hg ⊢
  rw [IndexSpaces.globalAt?_globalRef]
  exact lookup_eq_ok.mp hg

theorem element {type : ValueType} (he : ctx.elemType index = .ok type) :
    ∃ segment, m.elements[index]? = some segment ∧ segment.type = type := by
  have hget := lookup_eq_ok.mp he
  rw [h.elements, Array.getElem?_map] at hget
  exact Option.map_eq_some_iff.mp hget

end BodyContext.Within

def Emission.Ranges (m : Module) (slots : Nat) (e : Emission) (op : BasicOp) : Prop :=
  e.Separate slots → op.InRange { m with accessors := e.accessors } e.nextSlot

theorem Emission.admits_ranges : Admits (Ranges m slots) where
  scratch hs := ⟨fun h => h.lt_nextSlot hs, fun h => h.lt_nextSlot hs⟩
  drop _ := trivial
  unreachable _ := trivial
  pack _ _ := trivial
  unpack _ _ := trivial
  ret _ := trivial

theorem Instr.Moves.ranges {ctx : BodyContext} {labels : List (List ValueType)} {i : Instr}
    {unr unr' : Bool} {ops ops' : List Operand} (h : Instr.Moves ctx labels i unr ops unr' ops')
    (hctx : ctx.Within m slots) (hdata : ∀ data, i.dataIndex? = some data → data < m.data.size)
    (e : Emission) (op : BasicOp) (hop : i.Yields ctx e.accessors op) : e.Ranges m slots op := by
  intro hs
  have hslots := hs.base_le
  cases h with
  | unreachable | br | ret | brIf | brTable => cases hop
  | drop | select | refIsNull =>
    cases hop
    trivial
  | fixed h =>
    cases h with
    | nop => cases hop
    | call hf | refFunc hf =>
      cases hop
      rw [hctx.spaces] at hf
      exact ⟨_, hf⟩
    | callIndirect ht hel =>
      cases hop
      rw [hctx.spaces] at ht
      exact ⟨(Array.getElem?_eq_some_iff.mp (lookup_eq_ok.mp ht)).1, hctx.table hel⟩
    | load _ hm =>
      cases hop with
      | self => exact hctx.memory_lt hm
      | load hid => exact ⟨_, _, _, hid, hctx.memory_lt hm⟩
    | store _ hm =>
      cases hop with
      | self => exact hctx.memory_lt hm
      | store hid => exact ⟨_, _, _, hid, hctx.memory_lt hm⟩
    | localGet hl | localSet hl | localTee hl =>
      cases hop
      exact Nat.lt_of_lt_of_le (hctx.slotAt_lt hl) hslots
    | globalGet hg =>
      cases hop
      exact ⟨_, hctx.global hg⟩
    | globalSet hg hm =>
      cases hop
      exact ⟨_, hctx.global hg, hm⟩
    | tableGet ht | tableSet ht | tableSize ht | tableGrow ht | tableFill ht =>
      cases hop
      exact hctx.table_lt ht
    | memorySize hm | memoryGrow hm | memoryFill hm =>
      cases hop
      exact hctx.memory_lt hm
    | memoryInit hm _ =>
      cases hop
      exact ⟨hdata _ rfl, hctx.memory_lt hm⟩
    | dataDrop _ =>
      cases hop
      exact hdata _ rfl
    | memoryCopy hd hsrc =>
      cases hop
      exact ⟨hctx.memory_lt hd, hctx.memory_lt hsrc⟩
    | tableInit hel ht =>
      cases hop
      obtain ⟨segment, hseg, htype⟩ := hctx.element hel
      obtain ⟨t, htab, heq⟩ := hctx.table ht
      exact ⟨segment, t, hseg, htab, htype.trans heq.symm⟩
    | elemDrop hel =>
      cases hop
      obtain ⟨segment, hseg, -⟩ := hctx.element hel
      exact (Array.getElem?_eq_some_iff.mp hseg).1
    | tableCopy hd hsrc =>
      cases hop
      obtain ⟨t, htab, heq⟩ := hctx.table hd
      obtain ⟨u, htab', heq'⟩ := hctx.table hsrc
      exact ⟨t, u, htab, htab', heq.trans heq'.symm⟩
    | _ =>
      cases hop
      trivial

theorem Emission.Builds.inRange {T : Label → Prop} {pend : List Label} {e e' : Emission}
    (h : Builds (Ranges m slots) T e pend e') (hs : e.Separate slots) (hcode : e.asm.code = #[])
    (hop : .basic op ∈ e'.asm.code.toList) :
    op.InRange { m with accessors := e'.accessors } e'.nextSlot := by
  induction h with
  | refl =>
    rw [hcode] at hop
    cases hop
  | @basic pend e1 op' h hop' ih =>
    rw [basic_eq_emit, code_emit, Array.toList_push, List.mem_append, List.mem_singleton] at hop
    rcases hop with hop | hop
    · exact ih hop
    · cases hop
      exact hop' (h.extended.separate slots hs)
  | jump h hjump _ ih =>
    rw [code_emit, Array.toList_push, List.mem_append, List.mem_singleton] at hop
    rcases hop with hop | hop
    · exact ih hop
    · exact absurd hop.symm (hjump op)
  | newLabel _ ih => exact ih hop
  | spare _ ih => exact ih hop
  | bind _ ih => exact ih hop
  | @scratchSlot pend e1 h type ordinal ih =>
    rw [asm_scratchSlot] at hop
    have hx := (Extends.refl e1).scratchSlot type ordinal
    exact (ih hop).grow hx.keys hx.nextSlot
  | intern _ key ih => exact (ih hop).grow (Accessors.keys_intern _ _) (Nat.le_refl _)

/-! ## Positions of labels -/

def Assembly.Placed (asm : Assembly) : Prop :=
  ∀ i position : Nat, asm.labels[i]? = some (some position) → position ≤ asm.code.size

theorem Assembly.Placed.bind (h : asm.Placed) (label : Label) : (asm.bind label).Placed := by
  intro i position hi
  have hi' : (asm.labels.setIfInBounds label.id (some asm.code.size))[i]? =
    some (some position) := hi
  rw [Array.getElem?_setIfInBounds] at hi'
  split at hi'
  · split at hi'
    · cases hi'
      exact Nat.le_refl _
    · cases hi'
  · exact h i position hi'

theorem Assembly.Binds.placed {asm' : Assembly} {bound : List Label} (h : asm.Binds bound asm')
    (hp : asm.Placed) : asm'.Placed := by
  induction h with
  | refl => exact hp
  | @emit _ asm' _ op ih =>
    intro i position hi
    show position ≤ (asm'.code.push op).size
    rw [Array.size_push]
    exact Nat.le_succ_of_le (ih i position hi)
  | @newLabel _ asm' _ ih =>
    intro i position hi
    have hi' : (asm'.labels.push none)[i]? = some (some position) := hi
    rw [Array.getElem?_push] at hi'
    split at hi'
    · cases hi'
    · exact ih i position hi'
  | bind _ _ ih => exact ih.bind _

end Wasm
