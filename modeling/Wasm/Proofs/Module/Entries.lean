import Wasm.Proofs.Module.Grammar

/-! # Reading entries into a draft

For each kind of entry: which bytes are read, what is asked of the entry and what the draft is
then. -/

namespace Wasm

open List
open Decode (Vec Sized Reads)

namespace Draft

section

variable (d : Draft)
include d

theorem reads_readType : Reads d.readType fun bs d' =>
    ∃ type, FuncType.Form bs type ∧ d' = d.withSpaces (d.spaces.addType type) :=
  Reads.funcType.map _

theorem reads_readFunction : Reads d.readFunction fun bs d' =>
    ∃ typeIndex, Leb128.Unsigned 32 bs typeIndex ∧ typeIndex < d.spaces.types.size ∧
      d' = d.withSpaces { d.spaces with funcs := d.spaces.funcs.push typeIndex } := by
  refine Reads.position fun at_ => ?_
  refine (Reads.u32.bind fun typeIndex =>
    Reads.checked (x := d.spaces.addFunc typeIndex false) at_ fun spaces =>
      Reads.pure (d.withSpaces spaces)).congr fun bs d' => ?_
  constructor
  · rintro ⟨bs1, _, typeIndex, rfl, ht, spaces, hs, rfl, rfl⟩
    obtain ⟨hlt, rfl⟩ := addFunc_eq_ok.mp hs
    exact ⟨typeIndex, by rwa [append_nil], hlt, rfl⟩
  · rintro ⟨typeIndex, ht, hlt, rfl⟩
    exact ⟨bs, [], typeIndex, (append_nil _).symm, ht, _, addFunc_eq_ok.mpr ⟨hlt, rfl⟩, rfl, rfl⟩

theorem reads_readTable : Reads d.readTable fun bs d' =>
    ∃ type, (TableType.Form bs type ∧ type.limits.min ≤ maxTableEntries) ∧
      d' = d.withSpaces (d.spaces.addTable type false) :=
  Reads.tableType.map _

theorem reads_readMemory : Reads d.readMemory fun bs d' =>
    ∃ limits, (Limits.Form bs limits ∧ limits.Under d.module.pageCap) ∧
      d' = d.withSpaces (d.spaces.addMemory limits false) :=
  (Reads.memoryType _).map _

theorem reads_readImportDesc : Reads d.readImportDesc fun bs found =>
    found.1.Form bs ∧ found.1.Judged d.spaces.types.size d.module.pageCap ∧
      found.2 = found.1.addTo d.spaces := by
  refine Reads.position fun at_ => ?_
  refine ((Reads.itemKind _).bind (H := fun kind bs found => found.1.kind = kind ∧
    found.1.Form (kind.code :: bs) ∧ found.1.Judged d.spaces.types.size d.module.pageCap ∧
      found.2 = found.1.addTo d.spaces) fun kind => ?_).congr fun bs found => ?_
  · cases kind with
    | func =>
      refine (Reads.u32.bind fun typeIndex =>
        Reads.checked (x := d.spaces.addFunc typeIndex true) at_ fun spaces =>
          Reads.pure (ImportDesc.func typeIndex, spaces)).congr fun bs found => ?_
      constructor
      · rintro ⟨bs1, _, typeIndex, rfl, ht, spaces, hs, rfl, rfl⟩
        obtain ⟨hlt, rfl⟩ := addFunc_eq_ok.mp hs
        exact ⟨rfl, ⟨_, rfl, by rwa [append_nil]⟩, hlt, rfl⟩
      · obtain ⟨desc, spaces⟩ := found
        rintro ⟨hk, ⟨bs1, heq, hform⟩, hj, hs⟩
        cases desc <;> cases hk
        cases heq
        exact ⟨bs, [], _, (append_nil _).symm, hform, spaces, addFunc_eq_ok.mpr ⟨hj, hs⟩, rfl, rfl⟩
    | table =>
      refine (Reads.tableType.map fun type =>
        (ImportDesc.table type, d.spaces.addTable type true)).congr fun bs found => ?_
      constructor
      · rintro ⟨type, ⟨hform, hle⟩, rfl⟩
        exact ⟨rfl, ⟨_, rfl, hform⟩, hle, rfl⟩
      · obtain ⟨desc, spaces⟩ := found
        rintro ⟨hk, ⟨bs1, heq, hform⟩, hj, hs⟩
        cases desc <;> cases hk
        cases heq
        exact ⟨_, ⟨hform, hj⟩, congrArg (Prod.mk _) hs⟩
    | memory =>
      refine ((Reads.memoryType d.module.pageCap).map fun limits =>
        (ImportDesc.memory limits, d.spaces.addMemory limits true)).congr fun bs found => ?_
      constructor
      · rintro ⟨limits, ⟨hform, hle⟩, rfl⟩
        exact ⟨rfl, ⟨_, rfl, hform⟩, hle, rfl⟩
      · obtain ⟨desc, spaces⟩ := found
        rintro ⟨hk, ⟨bs1, heq, hform⟩, hj, hs⟩
        cases desc <;> cases hk
        cases heq
        exact ⟨_, ⟨hform, hj⟩, congrArg (Prod.mk _) hs⟩
    | global =>
      refine (Reads.globalType.map fun type =>
        (ImportDesc.global type, d.spaces.addGlobal type true)).congr fun bs found => ?_
      constructor
      · rintro ⟨type, hform, rfl⟩
        exact ⟨rfl, ⟨_, rfl, hform⟩, trivial, rfl⟩
      · obtain ⟨desc, spaces⟩ := found
        rintro ⟨hk, ⟨bs1, heq, hform⟩, hj, hs⟩
        cases desc <;> cases hk
        cases heq
        exact ⟨_, hform, congrArg (Prod.mk _) hs⟩
  · constructor
    · rintro ⟨_, bs2, kind, rfl, rfl, hk, hform, hj, hs⟩
      exact ⟨hform, hj, hs⟩
    · rintro ⟨⟨bs1, rfl, hform⟩, hj, hs⟩
      exact ⟨[found.1.kind.code], bs1, found.1.kind, rfl, rfl, rfl, ⟨bs1, rfl, hform⟩, hj, hs⟩

theorem reads_readImport : Reads d.readImport fun bs d' =>
    ∃ i : Import, i.Form bs ∧ i.desc.Judged d.spaces.types.size d.module.pageCap ∧
      d' = { d with
        module := { d.module with
          spaces := i.desc.addTo d.spaces, imports := d.module.imports.push i } } := by
  refine (Reads.name.bind fun module => Reads.name.bind fun name =>
    d.reads_readImportDesc.map fun found => { d with
      module := { d.module with
        spaces := found.2
        imports := d.module.imports.push ⟨module, name, found.1⟩ } }).congr fun bs d' => ?_
  constructor
  · rintro ⟨bs1, _, module, rfl, hm, bs2, bs3, name, rfl, hn, ⟨desc, spaces⟩, ⟨hform, hj, hs⟩, rfl⟩
    dsimp only at hform hj hs
    subst hs
    exact ⟨⟨module, name, desc⟩, ⟨bs1, bs2, bs3, rfl, hm, hn, hform⟩, hj, rfl⟩
  · rintro ⟨⟨module, name, desc⟩, ⟨bs1, bs2, bs3, rfl, hm, hn, hform⟩, hj, rfl⟩
    exact ⟨bs1, _, module, rfl, hm, bs2, bs3, name, rfl, hn, (desc, desc.addTo d.spaces),
      ⟨hform, hj, rfl⟩, rfl⟩

theorem reads_readGlobal : Reads d.readGlobal fun bs d' =>
    ∃ g : GlobalType × ConstExpr, Global.Form bs g ∧ g.2.Admitted d.spaces true g.1.content ∧
      d' = { d with
        module :=
          { d.module with
            spaces := d.spaces.addGlobal g.1 false
            globalInits := d.module.globalInits.push g.2 } } := by
  refine (Reads.globalType.bind fun type => (Reads.constExpr d.spaces type.content true).map
    fun init => { d with
      module :=
        { d.module with
          spaces := d.spaces.addGlobal type false
          globalInits := d.module.globalInits.push init } }).congr fun bs d' => ?_
  constructor
  · rintro ⟨bs1, bs2, type, rfl, ht, init, ⟨hform, hadm⟩, rfl⟩
    exact ⟨(type, init), ⟨bs1, bs2, rfl, ht, hform⟩, hadm, rfl⟩
  · rintro ⟨⟨type, init⟩, ⟨bs1, bs2, rfl, ht, hform⟩, hadm, rfl⟩
    exact ⟨bs1, bs2, type, rfl, ht, init, ⟨hform, hadm⟩, rfl⟩

end

theorem findExport?_isSome {m : Module} {name : String} :
    (m.findExport? name).isSome = true ↔ name ∈ m.exports.toList.map Export.name := by
  simp [Module.findExport?, Array.find?_isSome]

theorem reads_readExport (d : Draft) : Reads d.readExport fun bs d' =>
    ∃ e : Export, e.Form bs ∧ e.name ∉ d.module.exports.toList.map Export.name ∧
      requireItem d.spaces e.index e.kind = .ok () ∧
      d' = { d with module := { d.module with exports := d.module.exports.push e } } := by
  refine Reads.position fun at_ => ?_
  refine (Reads.name.bind fun name => Reads.refuse (C := (d.module.findExport? name).isSome = true)
    _ _ ((Reads.itemKind _).bind fun kind => Reads.position fun indexAt =>
      Reads.u32.bind fun index => Reads.checked (x := requireItem d.spaces index kind) indexAt
        fun _ => Reads.pure { d with
          module := { d.module with
            exports := d.module.exports.push ⟨name, kind, index⟩ } })).congr fun bs d' => ?_
  constructor
  · rintro ⟨bs1, _, name, rfl, hn, hnew, _, _, kind, rfl, rfl, bs2, _, index, rfl, hi, ⟨⟩,
      hr, rfl, rfl⟩
    rw [findExport?_isSome] at hnew
    rw [append_nil]
    exact ⟨⟨name, kind, index⟩, ⟨bs1, bs2, rfl, hn, hi⟩, hnew, hr, rfl⟩
  · rintro ⟨⟨name, kind, index⟩, ⟨bs1, bs2, rfl, hn, hi⟩, hnew, hr, rfl⟩
    refine ⟨bs1, _, name, rfl, hn, ?_, [kind.code], bs2, kind, rfl, rfl, bs2, [], index,
      (append_nil _).symm, hi, ⟨⟩, hr, rfl, rfl⟩
    rw [findExport?_isSome]
    exact hnew

theorem reads_readStart (d : Draft) : Reads d.readStart fun bs d' =>
    ∃ func, Leb128.Unsigned 32 bs func ∧ d.spaces.funcType func = .ok .nullary ∧
      d' = { d with module := { d.module with start := some func } } := by
  refine Reads.position fun at_ => ?_
  refine (Reads.u32.bind fun func => Reads.checked (x := d.spaces.funcType func) at_ fun type =>
    Reads.refuse (C := type ≠ .nullary) _ _ (Reads.pure { d with
      module := { d.module with start := some func } })).congr fun bs d' => ?_
  constructor
  · rintro ⟨bs1, _, func, rfl, hf, type, htype, hne, rfl, rfl⟩
    rw [Decidable.of_not_not hne] at htype
    exact ⟨func, by rwa [append_nil], htype, rfl⟩
  · rintro ⟨func, hf, htype, rfl⟩
    exact ⟨bs, [], func, (append_nil _).symm, hf, _, htype, fun h => h rfl, rfl, rfl⟩

/-! ## Segments -/

theorem reads_activeMode (spaces : IndexSpaces) (index : Nat) :
    Reads (do return SegmentMode.active index (← Decode.constExpr spaces .i32 false))
      fun bs mode => ∃ offset, (ConstExpr.Form bs offset ∧ offset.Admitted spaces false .i32) ∧
        mode = SegmentMode.active index offset :=
  (Reads.constExpr spaces .i32 false).map (SegmentMode.active index)

theorem reads_activeFirst (spaces : IndexSpaces) :
    Reads (do return SegmentMode.active 0 (← Decode.constExpr spaces .i32 false)) fun bs mode =>
      (∃ offset, ConstExpr.Form bs offset ∧ mode = SegmentMode.active 0 offset) ∧
        ∀ index offset, mode = .active index offset → offset.Admitted spaces false .i32 := by
  refine (reads_activeMode spaces 0).congr fun bs mode => ?_
  constructor
  · rintro ⟨offset, ⟨hform, hadm⟩, rfl⟩
    refine ⟨⟨offset, hform, rfl⟩, fun index offset' h => ?_⟩
    cases h
    exact hadm
  · rintro ⟨⟨offset, hform, rfl⟩, hadm⟩
    exact ⟨offset, ⟨hform, hadm 0 offset rfl⟩, rfl⟩

theorem reads_activeNamed (spaces : IndexSpaces) : Reads (do
      let index ← Decode.u32
      return SegmentMode.active index (← Decode.constExpr spaces .i32 false)) fun bs mode =>
      (∃ bs1 bs2 index offset, bs = bs1 ++ bs2 ∧ Leb128.Unsigned 32 bs1 index ∧
        ConstExpr.Form bs2 offset ∧ mode = SegmentMode.active index offset) ∧
        ∀ index offset, mode = .active index offset → offset.Admitted spaces false .i32 := by
  refine (Reads.u32.bind fun index => reads_activeMode spaces index).congr fun bs mode => ?_
  constructor
  · rintro ⟨bs1, bs2, index, rfl, hindex, offset, ⟨hform, hadm⟩, rfl⟩
    refine ⟨⟨bs1, bs2, index, offset, rfl, hindex, hform, rfl⟩, fun index' offset' h => ?_⟩
    cases h
    exact hadm
  · rintro ⟨⟨bs1, bs2, index, offset, rfl, hindex, hform, rfl⟩, hadm⟩
    exact ⟨bs1, bs2, index, rfl, hindex, offset, ⟨hform, hadm index offset rfl⟩, rfl⟩

variable {flags : Nat} {α : Type} {bs : List UInt8}

theorem reads_readElementMode (d : Draft) (hflags : flags ≤ 7) :
    Reads (d.readElementMode flags) fun bs mode => ElementSegment.ModeForm flags bs mode ∧
      ∀ index offset, mode = .active index offset → offset.Admitted d.spaces false .i32 := by
  have hother : ∀ mode : SegmentMode, (∀ index offset, mode ≠ .active index offset) →
      Reads (pure mode) fun bs found => (bs = [] ∧ found = mode) ∧
        ∀ index offset, found = .active index offset → offset.Admitted d.spaces false .i32 := by
    intro mode hne
    refine (Reads.pure mode).congr fun bs found => ?_
    constructor
    · rintro ⟨rfl, rfl⟩
      exact ⟨⟨rfl, rfl⟩, fun index offset h => absurd h (hne index offset)⟩
    · exact And.left
  match flags, hflags with
  | 0, _ => exact reads_activeFirst d.spaces
  | 1, _ => exact hother .passive nofun
  | 2, _ => exact reads_activeNamed d.spaces
  | 3, _ => exact hother .declarative nofun
  | 4, _ => exact reads_activeFirst d.spaces
  | 5, _ => exact hother .passive nofun
  | 6, _ => exact reads_activeNamed d.spaces
  | 7, _ => exact hother .declarative nofun

theorem reads_readElementType (hflags : flags ≤ 7) :
    Reads (readElementType flags) (ElementSegment.TypeForm flags) := by
  have hkind : Reads (do
      let at_ ← Decode.position
      let kind ← Decode.byte
      if kind = 0 then pure ValueType.funcRef else Decode.fail (.invalidRefType kind) at_)
      fun bs type => bs = [0] ∧ type = .funcRef := by
    refine Reads.position fun at_ => ?_
    refine (Reads.tag fun kind => (Reads.pure ValueType.funcRef).guard (P := kind = 0) _ _).congr
      fun bs type => ?_
    constructor
    · rintro ⟨kind, _, rfl, rfl, rfl, rfl⟩
      exact ⟨rfl, rfl⟩
    · rintro ⟨rfl, rfl⟩
      exact ⟨0, [], rfl, rfl, rfl, rfl⟩
  match flags, hflags with
  | 0, _ => exact Reads.pure _
  | 1, _ => exact hkind
  | 2, _ => exact hkind
  | 3, _ => exact hkind
  | 4, _ => exact Reads.pure _
  | 5, _ => exact Reads.refType
  | 6, _ => exact Reads.refType
  | 7, _ => exact Reads.refType

theorem reads_readElementItem (d : Draft) (type : ValueType) (hflags : flags ≤ 7) :
    Reads (d.readElementItem type (flags.testBit 2)) fun bs item =>
      ElementSegment.ItemForm flags bs item ∧
        item.Admitted d.spaces false (if flags < 4 then .funcRef else type) := by
  have hindex : Reads (d.readElementItem type false) fun bs item =>
      (∃ func, Leb128.Unsigned 32 bs func ∧ item = .refFunc func) ∧
        item.Admitted d.spaces false .funcRef := by
    refine Reads.position fun at_ => ?_
    refine (Reads.u32.bind fun func => Reads.checked (x := d.spaces.funcType func) at_ fun _ =>
      Reads.pure (ConstExpr.refFunc func)).congr fun bs item => ?_
    constructor
    · rintro ⟨bs1, _, func, rfl, hf, t, ht, rfl, rfl⟩
      rw [append_nil]
      exact ⟨⟨func, hf, rfl⟩, (ConstExpr.HasType.refFunc ht).admitted nofun false⟩
    · rintro ⟨⟨func, hf, rfl⟩, hadm⟩
      cases hadm.hasType with
      | refFunc ht => exact ⟨bs, [], func, (append_nil _).symm, hf, _, ht, rfl, rfl⟩
  match flags, hflags with
  | 0, _ | 1, _ | 2, _ | 3, _ => exact hindex
  | 4, _ | 5, _ | 6, _ | 7, _ => exact Reads.constExpr d.spaces type false

theorem requireElementTable_iff {spaces : IndexSpaces} {type : ValueType} {mode : SegmentMode} :
    requireElementTable spaces type mode = .ok () ↔ ∀ index offset, mode = .active index offset →
      ∃ table, spaces.tables[index]? = some table ∧ table.element = type := by
  constructor
  · intro h index offset hm
    exact requireElementTable_eq_ok h hm
  · intro h
    cases mode with
    | active index offset =>
      obtain ⟨table, htable, helement⟩ := h index offset rfl
      refine except_bind_eq_ok.mpr ⟨table, IndexSpaces.lookup_eq_ok.mpr htable, ?_⟩
      rw [if_pos helement]
    | passive | declarative => rfl

theorem each_and {G : List UInt8 → α → Prop} {P : α → Prop} {as : List α} :
    Decode.Each (fun bs a => G bs a ∧ P a) as bs ↔ Decode.Each G as bs ∧ ∀ a ∈ as, P a := by
  constructor
  · intro h
    induction h with
    | nil => exact ⟨.nil, nofun⟩
    | cons h _ ih => exact ⟨.cons h.1 ih.1, forall_mem_cons.mpr ⟨h.2, ih.2⟩⟩
  · rintro ⟨h, hall⟩
    induction h with
    | nil => exact .nil
    | cons h _ ih =>
      rw [forall_mem_cons] at hall
      exact .cons ⟨h, hall.1⟩ (ih hall.2)

theorem vec_and {G : List UInt8 → α → Prop} {P : α → Prop} {as : List α} :
    Vec (fun bs a => G bs a ∧ P a) bs as ↔ Vec G bs as ∧ ∀ a ∈ as, P a := by
  constructor
  · rintro ⟨bs1, bs2, rfl, hlen, he⟩
    exact ⟨⟨bs1, bs2, rfl, hlen, (each_and.mp he).1⟩, (each_and.mp he).2⟩
  · rintro ⟨⟨bs1, bs2, rfl, hlen, he⟩, hall⟩
    exact ⟨bs1, bs2, rfl, hlen, each_and.mpr ⟨he, hall⟩⟩

theorem reads_readElement (d : Draft) : Reads d.readElement fun bs d' =>
    ∃ segment : ElementSegment, segment.Form bs ∧ segment.Judged d.spaces ∧
      d' = { d with
        module := { d.module with elements := d.module.elements.push segment } } := by
  -- what is read behind the flags
  have hrest : ∀ (flags at_ : Nat), flags ≤ 7 → Reads (do
      let mode ← d.readElementMode flags
      let type ← readElementType flags
      Decode.charge at_ (requireElementTable d.spaces type mode)
      let items ← Decode.many (← Decode.u32) (d.readElementItem type (flags.testBit 2))
      return { d with
        module := { d.module with
          elements := d.module.elements.push ⟨type, items.toArray, mode⟩ } })
      fun bs d' => ∃ (segment : ElementSegment) (bs1 bs2 bs3 : List UInt8),
        bs = bs1 ++ (bs2 ++ bs3) ∧ ElementSegment.ModeForm flags bs1 segment.mode ∧
        ElementSegment.TypeForm flags bs2 segment.type ∧
        Vec (ElementSegment.ItemForm flags) bs3 segment.items.toList ∧ segment.Judged d.spaces ∧
        d' = { d with
          module := { d.module with elements := d.module.elements.push segment } } := by
    intro flags at_ hflags
    refine ((d.reads_readElementMode hflags).bind fun mode =>
      (reads_readElementType hflags).bind fun type =>
        Reads.checked (x := requireElementTable d.spaces type mode) at_ fun _ =>
          (d.reads_readElementItem type hflags).vecBind fun items => Reads.pure { d with
            module := { d.module with
              elements := d.module.elements.push ⟨type, items.toArray, mode⟩ } }).congr
      fun bs d' => ?_
    constructor
    · rintro ⟨bs1, _, mode, rfl, ⟨hm, hoffset⟩, bs2, _, type, rfl, ht, ⟨⟩, htable, bs3,
        _, items, rfl,
        hi, rfl, rfl⟩
      obtain ⟨hitems, hadm⟩ := vec_and.mp hi
      refine ⟨⟨type, items.toArray, mode⟩, bs1, bs2, bs3, by rw [append_nil], hm, ht, hitems,
        ⟨fun item hitem => ?_, fun index offset hmode => ?_⟩, rfl⟩
      · have := hadm item (mem_toArray.mp hitem)
        split at this
        · next hlt => rwa [ElementSegment.eq_funcRef ht hlt]
        · exact this
      · exact ⟨requireElementTable_iff.mp htable index offset hmode, hoffset index offset hmode⟩
    · rintro ⟨⟨type, items, mode⟩, bs1, bs2, bs3, rfl, hm, ht, hi, hj, rfl⟩
      refine ⟨bs1, _, mode, rfl, ⟨hm, fun index offset h => (hj.active index offset h).2⟩, bs2, _,
        type, rfl, ht, ⟨⟩, ?_, bs3, [], items.toList, (append_nil _).symm, ?_, rfl, rfl⟩
      · exact requireElementTable_iff.mpr fun index offset h => (hj.active index offset h).1
      · refine vec_and.mpr ⟨hi, fun item hitem => ?_⟩
        have := hj.items item (Array.mem_toList_iff.mp hitem)
        split
        · next hlt => rwa [ElementSegment.eq_funcRef ht hlt] at this
        · exact this
  refine Reads.position fun at_ => ?_
  refine (Reads.u32.bind (H := fun flags bs d' => flags ≤ 7 ∧
    ∃ (segment : ElementSegment) (bs1 bs2 bs3 : List UInt8),
      bs = bs1 ++ (bs2 ++ bs3) ∧ ElementSegment.ModeForm flags bs1 segment.mode ∧
      ElementSegment.TypeForm flags bs2 segment.type ∧
      Vec (ElementSegment.ItemForm flags) bs3 segment.items.toList ∧ segment.Judged d.spaces ∧
      d' = { d with
        module := { d.module with elements := d.module.elements.push segment } })
    fun flags => ?_).congr fun bs d' => ?_
  · by_cases hflags : flags ≤ 7
    · refine (Reads.refuse (C := flags > 7) _ _ (hrest flags at_ hflags)).congr fun bs d' => ?_
      exact and_congr_left fun _ => Nat.not_lt
    · rw [if_pos (Nat.lt_of_not_le hflags)]
      intro c d' c'
      constructor
      · intro h; cases h
      · rintro ⟨_, ⟨hle, -⟩, _⟩; exact absurd hle hflags
  · constructor
    · rintro ⟨bs0, _, flags, rfl, hf, -, segment, bs1, bs2, bs3, rfl, hm, ht, hi, hj, rfl⟩
      exact ⟨segment, ⟨flags, bs0, bs1, bs2, bs3, rfl, hf, hm, ht, hi⟩, hj, rfl⟩
    · rintro ⟨segment, ⟨flags, bs0, bs1, bs2, bs3, rfl, hf, hm, ht, hi⟩, hj, rfl⟩
      exact ⟨bs0, _, flags, rfl, hf, ElementSegment.flags_le hm, segment, bs1, bs2, bs3, rfl, hm,
        ht, hi, hj, rfl⟩

theorem reads_dataOffset (spaces : IndexSpaces) (at_ memory : Nat) : Reads (do
      let _ ← Decode.charge at_ (spaces.memory memory)
      return SegmentMode.active memory (← Decode.constExpr spaces .i32 false)) fun bs mode =>
      (∃ offset, ConstExpr.Form bs offset ∧ mode = SegmentMode.active memory offset) ∧
        ∀ index offset, mode = .active index offset →
          (∃ limits, spaces.memories[index]? = some limits) ∧
            offset.Admitted spaces false .i32 := by
  refine (Reads.checked (x := spaces.memory memory) at_ fun _ =>
    reads_activeMode spaces memory).congr fun bs mode => ?_
  constructor
  · rintro ⟨limits, hlimits, offset, ⟨hform, hadm⟩, rfl⟩
    refine ⟨⟨offset, hform, rfl⟩, fun index offset' h => ?_⟩
    cases h
    exact ⟨⟨limits, IndexSpaces.lookup_eq_ok.mp hlimits⟩, hadm⟩
  · rintro ⟨⟨offset, hform, rfl⟩, hj⟩
    obtain ⟨⟨limits, hlimits⟩, hadm⟩ := hj memory offset rfl
    exact ⟨limits, IndexSpaces.lookup_eq_ok.mpr hlimits, offset, ⟨hform, hadm⟩, rfl⟩

theorem reads_readDataMode (d : Draft) : Reads d.readDataMode fun bs mode =>
    DataSegment.ModeForm bs mode ∧ ∀ index offset, mode = .active index offset →
      (∃ limits, d.spaces.memories[index]? = some limits) ∧
        offset.Admitted d.spaces false .i32 := by
  refine Reads.position fun at_ => ?_
  refine (Reads.u32.bind (H := fun flags bs mode => DataSegment.FlagForm flags bs mode ∧
    ∀ index offset, mode = .active index offset →
      (∃ limits, d.spaces.memories[index]? = some limits) ∧ offset.Admitted d.spaces false .i32)
    fun flags => ?_).congr fun bs mode => ?_
  · match flags with
    | 0 => exact reads_dataOffset d.spaces at_ 0
    | 1 =>
      refine (Reads.pure SegmentMode.passive).congr fun bs mode => ?_
      constructor
      · rintro ⟨rfl, rfl⟩
        exact ⟨⟨rfl, rfl⟩, nofun⟩
      · exact And.left
    | 2 =>
      refine (Reads.u32.bind fun memory => reads_dataOffset d.spaces at_ memory).congr
        fun bs mode => ?_
      constructor
      · rintro ⟨bs1, bs2, memory, rfl, hm, ⟨offset, hform, rfl⟩, hj⟩
        exact ⟨⟨bs1, bs2, memory, offset, rfl, hm, hform, rfl⟩, hj⟩
      · rintro ⟨⟨bs1, bs2, memory, offset, rfl, hm, hform, rfl⟩, hj⟩
        exact ⟨bs1, bs2, memory, rfl, hm, ⟨offset, hform, rfl⟩, hj⟩
    | n + 3 => exact (Reads.fail _ _).congr fun _ _ => ⟨False.elim, And.left⟩
  · constructor
    · rintro ⟨bs0, bs1, flags, rfl, hf, hm, hj⟩
      exact ⟨⟨flags, bs0, bs1, rfl, hf, hm⟩, hj⟩
    · rintro ⟨⟨flags, bs0, bs1, rfl, hf, hm⟩, hj⟩
      exact ⟨bs0, bs1, flags, rfl, hf, hm, hj⟩

theorem reads_readData (d : Draft) : Reads d.readData fun bs d' =>
    ∃ segment : DataSegment, segment.Form bs ∧ segment.Judged d.spaces ∧
      d' = { d with module := { d.module with data := d.module.data.push segment } } := by
  refine (d.reads_readDataMode.bind fun mode => Reads.u32.bind fun n => (Reads.bytes n).map
    fun contents => { d with
      module := { d.module with data := d.module.data.push ⟨contents, mode⟩ } }).congr
    fun bs d' => ?_
  constructor
  · rintro ⟨bs1, _, mode, rfl, ⟨hm, hj⟩, bs2, bs3, n, rfl, hn, contents, ⟨hc, rfl⟩, rfl⟩
    exact ⟨⟨contents, mode⟩, ⟨bs1, _, rfl, hm, bs2, bs3, rfl, hn, hc⟩, hj, rfl⟩
  · rintro ⟨⟨contents, mode⟩, ⟨bs1, _, rfl, hm, bs2, bs3, rfl, hn, hc⟩, hj, rfl⟩
    exact ⟨bs1, _, mode, rfl, ⟨hm, hj⟩, bs2, bs3, bs3.length, rfl, hn, contents, ⟨hc, rfl⟩, rfl⟩

end Draft

end Wasm
