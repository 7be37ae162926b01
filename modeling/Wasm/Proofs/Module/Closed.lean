import Wasm.Proofs.Deciding
import Wasm.Proofs.Lowering.Placement
import Wasm.Proofs.Lowering.Ranges
import Wasm.Proofs.Module.Acceptance

/-! # Accepted modules are closed

Every reference is to something that is there and of the right kind. -/

namespace Wasm

open List

variable {bs : List UInt8} {offset : ConstExpr} {options : CompileOptions}

variable {accessors accessors' : Accessors} {index : Nat}

/-! ## Closed modules -/

/-- The number of items of a kind. -/
def IndexSpaces.count (spaces : IndexSpaces) : ItemKind → Nat
  | .func => spaces.funcs.size
  | .table => spaces.tables.size
  | .memory => spaces.memories.size
  | .global => spaces.globals.size

/-- A function stays in its code, frame and module. -/
structure CompiledFunction.Closed (m : Module) (f : CompiledFunction) : Prop where
  typed : m.spaces.funcType f.funcIndex = .ok f.type
  returns : f.code.back? = some (.basic .ret)
  jumps : ∀ op ∈ f.code, ∀ target ∈ op.targets, target < f.code.size
  ops : ∀ op, .basic op ∈ f.code → op.InRange m f.frameSlots
  locals : ∀ entry ∈ f.locals, entry.slot < f.frameSlots

/-- Its items and its table are of its type. -/
structure ElementSegment.Closed (m : Module) (segment : ElementSegment) : Prop where
  items : ∀ item ∈ segment.items, item = .refNull segment.type ∨
    ∃ func type, item = .refFunc func ∧ segment.type = .funcRef ∧ m.spaces.funcType func = .ok type
  active : ∀ index offset, segment.mode = .active index offset → (∃ value, offset = .i32 value) ∧
    ∃ table, m.spaces.tables[index]? = some table ∧ table.element = segment.type

/-- If it is active, its memory exists. -/
def DataSegment.Closed (m : Module) (segment : DataSegment) : Prop :=
  ∀ index offset, segment.mode = .active index offset →
    (∃ value, offset = .i32 value) ∧ index < m.spaces.memories.size

/-- All references of a module are to what is there. -/
structure Module.Closed (m : Module) : Prop where
  types : ∀ index ∈ m.spaces.funcs, index < m.spaces.types.size
  functions : ∀ f ∈ m.functions, f.Closed m
  bodies : m.spaces.importedFuncs + m.functions.size = m.spaces.funcs.size
  exportNames : (m.exports.toList.map Export.name).Nodup
  exportItems : ∀ e ∈ m.exports, e.index < m.spaces.count e.kind
  start : ∀ func, m.start = some func → m.spaces.funcType func = .ok .nullary
  elements : ∀ segment ∈ m.elements, segment.Closed m
  data : ∀ segment ∈ m.data, segment.Closed m
  inits : m.spaces.importedGlobals + m.globalInits.size = m.spaces.globals.size
  globals : ∀ index init, m.globalInits[index]? = some init →
    ∃ type, m.spaces.globalAt? (.defined index) = some type ∧
      init.Admitted m.spaces true type.content

/-! ## Functions -/

theorem Op.targets_relabel {σ τ : Type} (f : σ → τ) (op : Op σ) :
    (op.relabel f).targets = op.targets.map f := by
  cases op with
  | jumpTable targets default => simp [relabel, Op.targets]
  | _ => rfl

namespace Assembly.Placed

variable {asm : Assembly}

theorem place_lt (h : asm.Placed) {label : Label} (hb : IsBound asm.labels label) {size : Nat}
    (hsize : asm.code.size < size) : place asm.labels label < size := by
  obtain ⟨position, hp⟩ := hb
  rw [place_eq hp]
  exact Nat.lt_of_le_of_lt (h _ _ hp) hsize

end Assembly.Placed

theorem Scope.placed_bindLabels (sc : Scope) {e : Emission} (h : e.asm.Placed) :
    (sc.bindLabels e).asm.Placed := by
  unfold bindLabels
  split
  · exact (h.bind _).bind _
  · exact h.bind _

theorem Emission.exists_code_epilogue (e : Emission) (results : List ValueType) :
    ∃ code : Array (Op Label), (e.epilogue results).asm.code = code.push (.basic .ret) ∧
      e.asm.code.size ≤ code.size := by
  unfold epilogue
  cases Carrier.bundleFor? results with
  | some carrier =>
    refine ⟨(e.basic (.pack carrier)).asm.code, rfl, ?_⟩
    rw [basic_eq_emit, code_emit, Array.size_push]
    exact Nat.le_succ _
  | none => exact ⟨e.asm.code, rfl, Nat.le_refl _⟩

variable {m : Module} {ctx : BodyContext} {type : ValueType} {expr : ConstExpr}

theorem Body.Compiles.closed {funcIndex : Nat} {body : Body} {func : CompiledFunction}
    (h : body.Compiles ctx funcIndex accessors func accessors') (hspaces : ctx.spaces = m.spaces)
    (helements : ctx.elemTypes = m.elements.map (·.type))
    (hdata : ∀ data ∈ body.dataIndices, data < m.data.size) :
    func.Closed { m with accessors := accessors' } := by
  cases h with
  | @intro type sc e _ ht hmax hl hc hf =>
    obtain ⟨code, hlink, hfunc⟩ := except_bind_eq_ok.mp hf
    cases hfunc
    obtain ⟨hbound, rfl⟩ := Assembly.link_eq_ok.mp hlink
    have hheads := hl.emission_extends.heads.trans (sc.heads_emitEnd e)
    have hdead : sc.dead = false := hl.dead_eq
    have hkind : sc.kind = .function := hl.kind_eq
    have hlabels := sc.labels_emitEnd_eq e hdead
    have hplaced : (sc.bindLabels e).asm.Placed := by
      obtain ⟨bound, hbinds⟩ := hl.built.exists_binds
      refine sc.placed_bindLabels (hbinds.placed fun i position hi => ?_)
      have hi' : (#[none] : Array (Option Nat))[i]? = some (some position) := hi
      match i with
      | 0 => cases hi'
      | i + 1 => cases hi'
    -- the end of the function is emitted behind all labels
    obtain ⟨front, hfront, hsize⟩ : ∃ front : Array (Op Label),
      (sc.emitEnd e).asm.code = front.push (.basic .ret) ∧
        (sc.bindLabels e).asm.code.size ≤ front.size := by
      rw [sc.emitEnd_eq e hdead, if_pos hkind]
      exact Emission.exists_code_epilogue _ _
    have hwithin : (body.context ctx type.params).Within m
        (LocalSlot.width (body.localTypes type.params)) :=
      ⟨hspaces, helements, fun _ _ hentry => LocalSlot.slot_lt_width hentry⟩
    have hbuilds := @Code.Lowers.builds_function _ _ _ _ _ _ _ _ _ _ _ (fun _ => False) hl
      (@Emission.admits_ranges m _) fun i hi _ _ _ _ _ hm => hm.ranges hwithin fun data hd =>
        hdata data (mem_filterMap.mpr ⟨i, hi, hd⟩)
    refine ⟨?_, ?_, fun op hop target htarget => ?_, fun op hop => ?_, fun entry hentry => ?_⟩
    · show m.spaces.funcType (sc.emitEnd e).asm.funcIndex = .ok (sc.emitEnd e).asm.type
      rw [hheads.header.1, hheads.header.2.1, ← hspaces]
      exact ht
    · show ((sc.emitEnd e).asm.code.map _).back? = _
      rw [hfront, Array.map_push, Array.back?_push]
      rfl
    · obtain ⟨op, hmem, rfl⟩ := Array.mem_map.mp hop
      rw [Op.targets_relabel] at htarget
      obtain ⟨label, hlabel, rfl⟩ := mem_map.mp htarget
      have hb := hbound op hmem.val label hlabel
      rw [hlabels] at hb ⊢
      refine hplaced.place_lt hb ?_
      rw [Array.size_map, hfront, Array.size_push]
      exact Nat.lt_succ_of_le hsize
    · exact hbuilds.inRange (Scratch.separate_nil _) rfl (Op.basic_mem_relabel hop)
    · have hentry' : entry ∈ (sc.emitEnd e).asm.locals := hentry
      rw [hheads.header.2.2] at hentry'
      obtain ⟨i, hi⟩ := Array.mem_iff_getElem?.mp hentry'
      exact Nat.lt_of_lt_of_le (LocalSlot.slot_lt_width hi) hheads.nextSlot

theorem CompiledFunction.Closed.grow {f : CompiledFunction} (h : f.Closed { m with accessors })
    (hkeys : accessors.keys.toList <+: accessors'.keys.toList) :
    f.Closed { m with accessors := accessors' } :=
  { h with ops := fun op hop => (h.ops op hop).grow hkeys (Nat.le_refl _) }

theorem Body.Lowered.closed {bodies : List Body} {functions : List CompiledFunction}
    (h : Body.Lowered ctx index accessors bodies functions accessors')
    (hspaces : ctx.spaces = m.spaces) (helements : ctx.elemTypes = m.elements.map (·.type))
    (hdata : ∀ body ∈ bodies, ∀ data ∈ body.dataIndices, data < m.data.size) :
    ∀ f ∈ functions, f.Closed { m with accessors := accessors' } := by
  induction h with
  | nil => exact forall_mem_nil _
  | cons h hs ih =>
    rw [forall_mem_cons] at hdata ⊢
    exact ⟨(h.closed hspaces helements hdata.1).grow hs.keys, ih hdata.2⟩

/-! ## Exports, segments and globals -/

variable {spaces : IndexSpaces}

theorem Draft.requireItem_eq_ok {kind : ItemKind}
    (h : Draft.requireItem spaces index kind = .ok ()) : index < spaces.count kind := by
  have hlookup : ∀ {α : Type} {items : Array α} {fault : Nat → Fault} {item : α},
      IndexSpaces.lookup items index fault = .ok item → index < items.size := fun hitem =>
    (Array.getElem?_eq_some_iff.mp (IndexSpaces.lookup_eq_ok.mp hitem)).1
  cases kind with
  | func =>
    obtain ⟨type, htype, -⟩ := except_bind_eq_ok.mp h
    obtain ⟨typeIndex, hindex, -⟩ := IndexSpaces.funcType_eq_ok.mp htype
    exact (Array.getElem?_eq_some_iff.mp hindex).1
  | table | memory | global =>
    obtain ⟨item, hitem, -⟩ := except_bind_eq_ok.mp h
    exact hlookup hitem

theorem Decode.Each.exists_form {α : Type} {G : List UInt8 → α → Prop} {as : List α}
    (h : Each G as bs) : ∀ a ∈ as, ∃ bs, G bs a := by
  induction h with
  | nil => exact forall_mem_nil _
  | cons h _ ih => exact forall_mem_cons.mpr ⟨⟨_, h⟩, ih⟩

theorem ConstExpr.Form.isRef (h : ConstExpr.Form bs (.refNull type)) : type.isRef = true := by
  obtain ⟨bs1, -, code, imm, -, hform⟩ := h
  generalize code.toNat = n at hform
  unfold OpcodeForm at hform
  split at hform
  case h_5 =>
    obtain ⟨type', ⟨href, -⟩, heq⟩ := hform
    cases heq
    exact href
  all_goals first
    | exact hform.elim
    | (obtain ⟨_, _, heq⟩ := hform; cases heq)

theorem ConstExpr.Admitted.exists_i32 (h : expr.Admitted spaces false .i32)
    (hform : ConstExpr.Form bs expr) : ∃ value, expr = .i32 value := by
  obtain ⟨htype, hreads⟩ := h
  cases expr with
  | i32 value => exact ⟨value, rfl⟩
  | refNull type =>
    have href := hform.isRef
    cases htype
    cases href
  | globalGet index => exact nomatch (hreads index rfl).1
  | i64 | f32 | f64 | refFunc => cases htype

theorem ConstExpr.Admitted.null_or_func (h : expr.Admitted spaces false type)
    (href : type.isRef = true) :
    expr = .refNull type ∨ ∃ func funcType, expr = .refFunc func ∧ type = .funcRef ∧
      spaces.funcType func = .ok funcType := by
  obtain ⟨htype, hreads⟩ := h
  cases htype with
  | i32 | i64 | f32 | f64 => cases href
  | refNull => exact .inl rfl
  | refFunc hf => exact .inr ⟨_, _, rfl, rfl, hf⟩
  | globalGet => exact nomatch (hreads _ rfl).1

namespace ElementSegment

variable {segment : ElementSegment}

theorem Form.isRef (h : segment.Form bs) : segment.type.isRef = true := by
  obtain ⟨flags, bs0, bs1, bs2, bs3, -, -, -, htype, -⟩ := h
  unfold TypeForm at htype
  split at htype
  iterate 5 · rw [htype.2]; rfl
  · exact htype.1

theorem Form.exists_offset (h : segment.Form bs) (hmode : segment.mode = .active index offset) :
    ∃ bs, ConstExpr.Form bs offset := by
  obtain ⟨flags, bs0, bs1, bs2, bs3, -, -, hform, -, -⟩ := h
  rw [hmode] at hform
  unfold ModeForm at hform
  split at hform
  all_goals first
    | exact hform.elim
    | exact nomatch hform.2
    | (obtain ⟨_, hf, heq⟩ := hform; cases heq; exact ⟨_, hf⟩)
    | (obtain ⟨_, _, _, _, -, -, hf, heq⟩ := hform; cases heq; exact ⟨_, hf⟩)

theorem Judged.closed {m : Module} (h : segment.Judged m.spaces) (hform : segment.Form bs) :
    segment.Closed m where
  items item hi := (h.items item hi).null_or_func hform.isRef
  active index offset hmode := by
    obtain ⟨htable, hoffset⟩ := h.active index offset hmode
    obtain ⟨bs', hbs⟩ := hform.exists_offset hmode
    exact ⟨hoffset.exists_i32 hbs, htable⟩

end ElementSegment

namespace DataSegment

theorem Form.exists_offset {segment : DataSegment} (h : segment.Form bs)
    (hmode : segment.mode = .active index offset) : ∃ bs, ConstExpr.Form bs offset := by
  obtain ⟨bs1, bs2, -, ⟨flags, bs3, bs4, -, -, hform⟩, -⟩ := h
  rw [hmode] at hform
  unfold FlagForm at hform
  split at hform
  · obtain ⟨_, hf, heq⟩ := hform
    cases heq
    exact ⟨_, hf⟩
  · cases hform.2
  · obtain ⟨_, _, _, _, -, -, hf, heq⟩ := hform
    cases heq
    exact ⟨_, hf⟩
  · exact hform.elim

theorem Judged.closed {m : Module} {segment : DataSegment} (h : segment.Judged m.spaces)
    (hform : segment.Form bs) : segment.Closed m := by
  intro index offset hmode
  obtain ⟨⟨limits, hmemory⟩, hoffset⟩ := h index offset hmode
  obtain ⟨bs', hbs⟩ := hform.exists_offset hmode
  exact ⟨hoffset.exists_i32 hbs, (Array.getElem?_eq_some_iff.mp hmemory).1⟩

end DataSegment

/-! ## Modules -/

namespace Contents

variable {m : Contents}

theorem Written.entries (h : m.Written bs) (kind : Section) (hkind : kind ≠ .custom) {α : Type}
    {G : List UInt8 → α → Prop} {as : List α}
    (hform : ∀ content, m.SectionForm content kind → Decode.Vec G content as)
    (habsent : m.Absent kind → as = []) : ∀ a ∈ as, ∃ bs, G bs a := by
  obtain ⟨frames, rest, -, -, -, hforms⟩ := h
  obtain ⟨hwritten, hnone⟩ := hforms kind hkind
  by_cases hf : ∃ content, (kind, content) ∈ frames
  · obtain ⟨content, hf⟩ := hf
    obtain ⟨bs1, bs2, -, -, heach⟩ := hform content (hwritten content hf)
    exact heach.exists_form
  · rw [habsent (hnone fun content hc => hf ⟨content, hc⟩)]
    exact forall_mem_nil _

theorem Written.element_form (h : m.Written bs) :
    ∀ segment ∈ m.elements, ∃ bs, ElementSegment.Form bs segment :=
  h.entries .element nofun (fun _ => id) id

theorem Written.data_form (h : m.Written bs) :
    ∀ segment ∈ m.data, ∃ bs, DataSegment.Form bs segment :=
  h.entries .data nofun (fun _ => id) id

theorem Valid.types_lt (h : m.Valid options) :
    ∀ index ∈ m.spaces.funcs, index < m.types.length := by
  intro index hi
  have hi' : index ∈ m.descs.filterMap ImportDesc.func? ++ m.funcs := by simpa [spaces] using hi
  rcases mem_append.mp hi' with hi | hi
  · obtain ⟨desc, hdesc, hfunc⟩ := mem_filterMap.mp hi
    obtain ⟨i, himport, rfl⟩ := mem_map.mp hdesc
    have hj := h.judged .imports i himport
    cases hdesc' : i.desc with
    | func typeIndex =>
      rw [hdesc'] at hj hfunc
      cases hfunc
      exact hj
    | table | memory | global =>
      rw [hdesc'] at hfunc
      cases hfunc
  · exact h.judged .function index hi

theorem globalAt?_defined (index : Nat) :
    m.spaces.globalAt? (.defined index) = m.globals[index]?.map Prod.fst := by
  show (m.descs.filterMap ImportDesc.global? ++ m.globals.map Prod.fst).toArray[
    (m.descs.filterMap ImportDesc.global?).length + index]? = _
  rw [getElem?_toArray, getElem?_append_right (Nat.le_add_right _ _),
    Nat.add_sub_cancel_left, getElem?_map]

theorem Valid.closed (h : m.Valid options) (hw : m.Written bs) : (m.module options).Closed where
  types := h.types_lt
  functions := by
    intro f hf
    exact Body.Lowered.closed (m := m.module options) (h.judged .code).2 rfl rfl h.dataIndices f
      (mem_toArray.mp hf)
  bodies := by
    obtain ⟨hlength, hlowered⟩ := h.judged .code
    show (m.descs.filterMap ImportDesc.func?).length + m.functions.toArray.size =
      (m.descs.filterMap ImportDesc.func? ++ m.funcs).toArray.size
    rw [size_toArray, size_toArray, length_append, hlowered.length, hlength]
  exportNames := (h.judged .exports).1
  exportItems e he := Draft.requireItem_eq_ok ((h.judged .exports).2 e (mem_toArray.mp he))
  start := h.judged .start
  elements := by
    intro segment hs
    have hs' := mem_toArray.mp hs
    obtain ⟨bs', hform⟩ := hw.element_form segment hs'
    exact (h.judged .element segment hs').closed hform
  data := by
    intro segment hs
    have hs' := mem_toArray.mp hs
    obtain ⟨bs', hform⟩ := hw.data_form segment hs'
    exact ((h.judged .data).1 segment hs').closed hform
  inits := by
    show (m.descs.filterMap ImportDesc.global?).length + (m.globals.map Prod.snd).toArray.size =
      (m.descs.filterMap ImportDesc.global? ++ m.globals.map Prod.fst).toArray.size
    rw [size_toArray, size_toArray, length_append, length_map, length_map]
  globals := by
    intro index init hinit
    have hinit' : (m.globals.map Prod.snd).toArray[index]? = some init := hinit
    rw [getElem?_toArray, getElem?_map] at hinit'
    obtain ⟨g, hg, rfl⟩ := Option.map_eq_some_iff.mp hinit'
    refine ⟨g.1, ?_, h.judged .global g (mem_of_getElem? hg)⟩
    show m.spaces.globalAt? (.defined index) = some g.1
    rw [m.globalAt?_defined, hg]
    rfl

/-! ## Well-formed modules -/

theorem Written.isRef (h : m.Written bs) : ∀ type ∈ m.spaces.tables, type.element.isRef = true := by
  intro type ht
  rcases mem_append.mp (mem_toArray.mp ht) with ht | ht
  · obtain ⟨desc, hdesc, htable⟩ := mem_filterMap.mp ht
    obtain ⟨i, himport, rfl⟩ := mem_map.mp hdesc
    obtain ⟨_, _, _, _, -, -, -, _, -, hform⟩ :=
      h.entries .imports nofun (fun _ => id) id i himport
    generalize i.desc = desc at htable hform
    cases desc with
    | table =>
      cases htable
      obtain ⟨_, -, href, -⟩ := hform
      exact href
    | func | memory | global => cases htable
  · obtain ⟨_, _, -, href, -⟩ := h.entries .table nofun (fun _ => id) id type ht
    exact href

theorem lists_descs (m : Contents) : m.spaces.Lists m.descs := by
  have hfirst : ∀ {α : Type} (listed defined : List α),
      Imported listed (listed ++ defined).toArray listed.length :=
    fun listed defined => ⟨by simp, take_left.symm⟩
  exact ⟨hfirst _ _, hfirst _ _, hfirst _ _, hfirst _ _⟩

theorem Valid.wellFormed (h : m.Valid options) (hw : m.Written bs) :
    (m.module options).WellFormed where
  funcTypes := h.types_lt
  tableTypes := hw.isRef
  listed := m.lists_descs
  inits := by
    show Forall₂ _ (m.globals.map Prod.snd)
      ((m.descs.filterMap ImportDesc.global? ++ m.globals.map Prod.fst).drop
        (m.descs.filterMap ImportDesc.global?).length)
    rw [drop_left, forall₂_map_left_iff, forall₂_map_right_iff, forall₂_same]
    exact fun g hg => (h.judged .global g hg).hasType
  elements segment hs := by
    have hj := h.judged .element segment (mem_toArray.mp hs)
    exact ⟨fun item hi => (hj.items item hi).hasType,
      fun index offset hm => (hj.active index offset hm).imp_right (·.hasType)⟩
  data segment hs index offset hm :=
    ((h.judged .data).1 segment (mem_toArray.mp hs) index offset hm).imp_right (·.hasType)
  start := h.judged .start
  defined := by
    obtain ⟨hlength, hlowered⟩ := h.judged .code
    exact (hlowered.length.trans hlength).trans m.definedFuncs_spaces.symm

end Contents

theorem Module.wellFormed_of_compile {binary : ByteArray} (h : compile options binary = .ok m) :
    m.WellFormed := by
  obtain ⟨contents, hwritten, hvalid, rfl⟩ := Contents.exists_of_compile h
  exact hvalid.wellFormed hwritten

/-- **An accepted module is closed.** -/
theorem Module.closed_of_compile {options : CompileOptions} {binary : ByteArray} {m : Module}
    (h : Module.compile options binary = .ok m) : m.Closed := by
  obtain ⟨contents, hwritten, hvalid, rfl⟩ := Contents.exists_of_compile h
  exact hvalid.closed hwritten

def loading : ByteArray :=
  ⟨#[0x00, 0x61, 0x73, 0x6D, 0x01, 0x00, 0x00, 0x00, 0x01, 0x05, 0x01, 0x60, 0x00, 0x01, 0x7F,
    0x03, 0x02, 0x01, 0x00, 0x05, 0x03, 0x01, 0x00, 0x01, 0x07, 0x05, 0x01, 0x01, 0x66, 0x00, 0x00,
    0x0A, 0x09, 0x01, 0x07, 0x00, 0x41, 0x01, 0x28, 0x02, 0x08, 0x0B]⟩

/-- A module that loads through an accessor. -/
theorem Module.closed_loading : ∃ m, Module.compile .standard loading = .ok m ∧ m.Closed ∧
    m.functions.toList.map (·.code.toList) =
      [[.basic (.i32Const 1), .basic (.loadVia 0), .basic .ret]] ∧
    ∃ f ∈ m.functions, (BasicOp.loadVia 0).InRange m f.frameSlots := by
  have hrun : ∃ m, Module.compile .standard loading = .ok m ∧
      m.functions.toList.map (·.code.toList) =
        [[.basic (.i32Const 1), .basic (.loadVia 0), .basic .ret]] := by
    decide +kernel
  obtain ⟨m, hm, hfuncs⟩ := hrun
  have hclosed := closed_of_compile hm
  refine ⟨m, hm, hclosed, hfuncs, ?_⟩
  obtain ⟨f, hf, hfcode⟩ := mem_map.mp (hfuncs ▸ mem_singleton.mpr rfl)
  refine ⟨f, Array.mem_toList_iff.mp hf,
    (hclosed.functions f (Array.mem_toList_iff.mp hf)).ops _ ?_⟩
  rw [← Array.mem_toList_iff, hfcode]
  decide

end Wasm
