import Wasm.Proofs.Module.Entries

/-! # The contents of a module

The entries of a module in written order, and how a section reads them (`Contents.shows_section`).
-/

namespace Wasm

open List

variable {c c' : Cursor} {ctx : BodyContext} {read : Draft → Decode Draft} {d : Draft}

open Decode (Vec Sized Reads Shows Each InTurn inTurn_nil inTurn_cons)

variable {n : Nat} {bs : List UInt8}

/-! ## Ranges -/

namespace Decode

theorem Cursor.left_narrow (c : Cursor) (h : n ≤ c.remaining) :
    (c.narrow n h).left = c.left.take n := by
  have := c.pos_add_le h
  show (c.bytes.data.toList.take (c.pos + n)).drop c.pos = _
  rw [Cursor.left, drop_take, drop_take, take_take]
  congr 1
  omega

theorem over_of_sub {range : Cursor} (h : sub n c = .ok range c') :
    c.Over range.left c' ∧ range.left.length = n := by
  unfold sub at h
  split at h
  · next hle =>
      cases h
      rw [Cursor.left_narrow c hle]
      refine ⟨c.over_advance hle, ?_⟩
      rw [length_take, Cursor.length_left]
      omega
  · cases h

theorem exists_sub {content : List UInt8} (h : c.Over content c') :
    ∃ range, sub content.length c = .ok range c' ∧ range.left = content := by
  have hlen : content.length ≤ c.remaining := by
    rw [← c.length_left, h.left, length_append]
    exact Nat.le_add_right _ _
  have htake : c.left.take content.length = content := by rw [h.left, take_left]
  have ho := c.over_advance hlen
  rw [htake] at ho
  refine ⟨c.narrow content.length hlen, ?_, ?_⟩
  · unfold sub
    rw [dif_pos hlen, h.unique ho]
  · rw [Cursor.left_narrow, htake]

end Decode

/-! ## Lowered bodies -/

/-- Bodies are lowered in turn, from `index` on. -/
inductive Body.Lowered (ctx : BodyContext) :
    Nat → Accessors → List Body → List CompiledFunction → Accessors → Prop
  | nil {index accessors} : Lowered ctx index accessors [] [] accessors
  | cons {index accessors accessors1 accessors' body func bodies functions}
      (h : body.Compiles ctx index accessors func accessors1)
      (hs : Lowered ctx (index + 1) accessors1 bodies functions accessors') :
      Lowered ctx index accessors (body :: bodies) (func :: functions) accessors'

namespace Body.Lowered

variable {index : Nat} {accessors accessors' : Accessors} {bodies : List Body}
  {functions : List CompiledFunction}

variable (h : Body.Lowered ctx index accessors bodies functions accessors')
include h

theorem length : functions.length = bodies.length := by
  induction h with
  | nil => rfl
  | cons _ _ ih => rw [length_cons, length_cons, ih]

theorem keys : accessors.keys.toList <+: accessors'.keys.toList := by
  induction h with
  | nil => exact prefix_rfl
  | cons h _ ih => exact h.keys.trans ih

theorem compiles {i : Nat} {func : CompiledFunction} (hf : functions[i]? = some func) :
    ∃ body, bodies[i]? = some body ∧ ∃ before after : Accessors,
      body.Compiles ctx (index + i) before func after ∧
        after.keys.toList <+: accessors'.keys.toList := by
  induction h generalizing i with
  | nil => cases hf
  | @cons index accessors accessors1 _ body func bodies functions h hs ih =>
    cases i with
    | zero =>
      cases hf
      exact ⟨body, rfl, _, _, h, hs.keys⟩
    | succ i =>
      obtain ⟨body', hb, before, after, hc, hkeys⟩ := ih hf
      rw [Nat.add_right_comm] at hc
      exact ⟨body', hb, before, after, hc, hkeys⟩

end Body.Lowered

/-- The data segments that the code of a body refers to. -/
def Body.dataIndices (body : Body) : List Nat := body.code.instrs.filterMap Instr.dataIndex?

theorem Body.pending_eq (ctx : BodyContext) (body : Body) :
    ctx.pending (body.code.instrs ++ [.endScope]) =
      if ctx.dataCount = none then body.dataIndices else [] := by
  unfold BodyContext.pending
  rw [filterMap_append]
  exact congrArg (fun l => if ctx.dataCount = none then l else []) (append_nil _)

namespace Draft

open Decode

def outline (d : Draft) : Draft × List Nat :=
  ({ d with dataRefs := #[] }, d.dataRefs.toList.map Prod.fst)

def addFunctions (d : Draft) (functions : List CompiledFunction) (accessors : Accessors) : Draft :=
  { d with
    module := { d.module with functions := d.module.functions ++ functions.toArray, accessors } }

def noted (ctx : BodyContext) (bodies : List Body) : List Nat :=
  if ctx.dataCount = none then bodies.flatMap Body.dataIndices else []

theorem noted_nil (ctx : BodyContext) : noted ctx [] = [] := ite_self _

theorem noted_cons (ctx : BodyContext) (body : Body) (bodies : List Body) :
    noted ctx (body :: bodies) =
      ctx.pending (body.code.instrs ++ [.endScope]) ++ noted ctx bodies := by
  rw [Body.pending_eq, noted, noted]
  split
  · rw [flatMap_cons]
  · rfl

theorem shows_readCode (d : Draft) : Shows outline (readCode ctx d) fun bs out =>
    ∃ (body : Body) (func : CompiledFunction) (accessors : Accessors), Sized Body.Form bs body ∧
      body.Compiles ctx (ctx.spaces.importedFuncs + d.outline.1.module.functions.size)
        d.outline.1.module.accessors func accessors ∧
      out = (d.outline.1.addFunctions [func] accessors,
        d.outline.2 ++ ctx.pending (body.code.instrs ++ [.endScope])) := by
  intro c out c'
  constructor
  · rintro ⟨d', h, rfl⟩
    obtain ⟨size, c1, hsize, h1⟩ := bind_eq_ok.mp h
    obtain ⟨range, c2, hsub, h2⟩ := bind_eq_ok.mp h1
    obtain ⟨⟨func, accessors, refs⟩, c3, hbody, h3⟩ := bind_eq_ok.mp h2
    obtain ⟨⟨c4, hlower⟩, rfl⟩ := within_eq_ok.mp hbody
    obtain ⟨body, hform, -, hcomp, hrefs⟩ := body_eq_ok_noting.mp ⟨refs, hlower, rfl⟩
    obtain ⟨bs1, hu, ho1⟩ := (Reads.u32 _ _ _).mp hsize
    obtain ⟨ho2, rfl⟩ := over_of_sub hsub
    cases h3
    refine ⟨bs1 ++ range.left, ⟨body, func, accessors, ⟨bs1, range.left, rfl, hu, hform⟩, hcomp,
      Prod.ext ?_ hrefs⟩, ho1.trans ho2⟩
    rfl
  · rintro ⟨_, ⟨body, func, accessors, ⟨bs1, bs2, rfl, hsize, hbody⟩, hcomp, rfl⟩, ho⟩
    obtain ⟨c1, ho1, ho2⟩ := ho.split
    obtain ⟨range, hsub, hleft⟩ := exists_sub ho2
    obtain ⟨stop, hrange⟩ := range.exists_over_left
    rw [← hleft] at hbody
    obtain ⟨refs, hlower, hrefs⟩ := (@body_eq_ok_noting _ _ _ d.dataRefs _ _ _ _ _).mpr
      ⟨body, hbody, hrange, hcomp, rfl⟩
    have hu := (Reads.u32 c bs2.length c1).mpr ⟨bs1, hsize, ho1⟩
    have hwithin := (@within_eq_ok range c' c' _ _ _).mpr ⟨⟨stop, hlower⟩, rfl⟩
    refine ⟨{ d.addFunctions [func] accessors with dataRefs := refs }, ?_, Prod.ext rfl hrefs⟩
    rw [readCode, bind_of_ok hu, bind_of_ok hsub]
    refine (bind_of_ok hwithin).trans ?_
    rfl

def AddsBodies (ctx : BodyContext) (n : Nat) (before : Draft × List Nat) (bs : List UInt8)
    (out : Draft × List Nat) : Prop :=
  ∃ (bodies : List Body) (functions : List CompiledFunction) (accessors : Accessors),
    bodies.length = n ∧ Each (Sized Body.Form) bodies bs ∧
    Body.Lowered ctx (ctx.spaces.importedFuncs + before.1.module.functions.size)
      before.1.module.accessors bodies functions accessors ∧
    out = (before.1.addFunctions functions accessors, before.2 ++ noted ctx bodies)

theorem shows_readCodes (n : Nat) (d : Draft) :
    Shows outline (fold (readCode ctx) n d) (AddsBodies ctx n d.outline) := by
  induction n generalizing d with
  | zero =>
    refine (Reads.pure d).shows.congr fun bs out => ?_
    constructor
    · rintro ⟨_, ⟨rfl, rfl⟩, rfl⟩
      exact ⟨[], [], _, rfl, .nil, .nil, by simp [addFunctions, noted_nil]⟩
    · rintro ⟨bodies, functions, accessors, hlen, hforms, hlowered, rfl⟩
      cases hforms with
      | nil =>
        cases hlowered
        exact ⟨d, ⟨rfl, rfl⟩, by simp [addFunctions, noted_nil]⟩
      | cons => cases hlen
  | succ n ih =>
    refine ((shows_readCode d).bind ih).congr fun bs out => ?_
    constructor
    · rintro ⟨bs1, bs2, _, rfl, ⟨body, func, accessors1, hform, hcomp, rfl⟩, bodies, functions,
        accessors, rfl, hforms, hlowered, rfl⟩
      refine ⟨body :: bodies, func :: functions, accessors, rfl, .cons hform hforms,
        .cons hcomp ?_, ?_⟩
      · simpa [addFunctions, Nat.add_assoc] using hlowered
      · simp [addFunctions, noted_cons]
    · rintro ⟨bodies, functions, accessors, hlen, hforms, hlowered, rfl⟩
      cases hforms with
      | nil => cases hlen
      | cons hform hforms =>
        cases hlowered with
        | @cons _ _ _ _ _ _ _ functions hcomp hlowered =>
          refine ⟨_, _, _, rfl, ⟨_, _, _, hform, hcomp, rfl⟩, _, functions, accessors,
            Nat.succ.inj hlen, hforms, ?_, ?_⟩
          · simpa [addFunctions, Nat.add_assoc] using hlowered
          · simp [addFunctions, noted_cons]

end Draft

/-! ## Contents -/

/-- The entries of a module in written order. -/
structure Contents where
  types : List FuncType
  imports : List Import
  funcs : List Nat
  tables : List TableType
  memories : List Limits
  globals : List (GlobalType × ConstExpr)
  exports : List Export
  start : Option Nat
  elements : List ElementSegment
  dataCount : Option Nat
  bodies : List Body
  functions : List CompiledFunction
  accessors : Accessors
  data : List DataSegment

namespace Contents

def empty : Contents := ⟨[], [], [], [], [], [], [], none, [], none, [], [], .empty, []⟩

/-- What the imports ask for. -/
def descs (m : Contents) : List ImportDesc := m.imports.map Import.desc

/-- The index spaces, imported items first. -/
def spaces (m : Contents) : IndexSpaces where
  types := m.types.toArray
  funcs := (m.descs.filterMap ImportDesc.func? ++ m.funcs).toArray
  tables := (m.descs.filterMap ImportDesc.table? ++ m.tables).toArray
  memories := (m.descs.filterMap ImportDesc.memory? ++ m.memories).toArray
  globals := (m.descs.filterMap ImportDesc.global? ++ m.globals.map Prod.fst).toArray
  importedFuncs := (m.descs.filterMap ImportDesc.func?).length
  importedTables := (m.descs.filterMap ImportDesc.table?).length
  importedMemories := (m.descs.filterMap ImportDesc.memory?).length
  importedGlobals := (m.descs.filterMap ImportDesc.global?).length

/-- The module of these contents. -/
def module (options : CompileOptions) (m : Contents) : Module where
  spaces := m.spaces
  imports := m.imports.toArray
  exports := m.exports.toArray
  functions := m.functions.toArray
  globalInits := (m.globals.map Prod.snd).toArray
  elements := m.elements.toArray
  data := m.data.toArray
  accessors := m.accessors
  start := m.start
  pageCap := options.pageCap

/-- What function bodies are checked against. -/
def context (options : CompileOptions) (m : Contents) : BodyContext where
  spaces := m.spaces
  locals := #[]
  elemTypes := m.elements.toArray.map (·.type)
  dataCount := m.dataCount
  useAccessors := options.accessors

/-- The written forms of the entries of a section. -/
def SectionForm (m : Contents) (bs : List UInt8) : Section → Prop
  | .custom => True
  | .type => Vec FuncType.Form bs m.types
  | .imports => Vec Import.Form bs m.imports
  | .function => Vec (Leb128.Unsigned 32) bs m.funcs
  | .table => Vec TableType.Form bs m.tables
  | .memory => Vec Limits.Form bs m.memories
  | .global => Vec Global.Form bs m.globals
  | .exports => Vec Export.Form bs m.exports
  | .start => ∃ func, Leb128.Unsigned 32 bs func ∧ m.start = some func
  | .element => Vec ElementSegment.Form bs m.elements
  | .dataCount => ∃ count, Leb128.Unsigned 32 bs count ∧ m.dataCount = some count
  | .code => Vec (Sized Body.Form) bs m.bodies
  | .data => Vec DataSegment.Form bs m.data

/-- What is asked of the entries of a section. -/
def Judged (options : CompileOptions) (m : Contents) : Section → Prop
  | .custom | .type | .dataCount => True
  | .imports => ∀ i ∈ m.imports, i.desc.Judged m.types.length options.pageCap
  | .function => ∀ typeIndex ∈ m.funcs, typeIndex < m.types.length
  | .table => ∀ type ∈ m.tables, type.limits.min ≤ maxTableEntries
  | .memory => ∀ limits ∈ m.memories, limits.Under options.pageCap
  | .global => ∀ g ∈ m.globals, g.2.Admitted m.spaces true g.1.content
  | .exports => (m.exports.map Export.name).Nodup ∧
      ∀ e ∈ m.exports, Draft.requireItem m.spaces e.index e.kind = .ok ()
  | .start => ∀ func, m.start = some func → m.spaces.funcType func = .ok .nullary
  | .element => ∀ segment ∈ m.elements, segment.Judged m.spaces
  | .code => m.bodies.length = m.funcs.length ∧
      Body.Lowered (m.context options) m.spaces.importedFuncs .empty m.bodies
        m.functions m.accessors
  | .data => (∀ segment ∈ m.data, segment.Judged m.spaces) ∧
      ∀ count, m.dataCount = some count → count = m.data.length

/-- Two contents have the same entries in a section. -/
def Same (m m' : Contents) : Section → Prop
  | .custom => True
  | .type => m.types = m'.types
  | .imports => m.imports = m'.imports
  | .function => m.funcs = m'.funcs
  | .table => m.tables = m'.tables
  | .memory => m.memories = m'.memories
  | .global => m.globals = m'.globals
  | .exports => m.exports = m'.exports
  | .start => m.start = m'.start
  | .element => m.elements = m'.elements
  | .dataCount => m.dataCount = m'.dataCount
  | .code => m.bodies = m'.bodies ∧ m.functions = m'.functions ∧ m.accessors = m'.accessors
  | .data => m.data = m'.data

/-- A section has no entries. -/
def Absent (m : Contents) (kind : Section) : Prop := m.Same empty kind

def set (m m' : Contents) : Section → Contents
  | .custom => m
  | .type => { m with types := m'.types }
  | .imports => { m with imports := m'.imports }
  | .function => { m with funcs := m'.funcs }
  | .table => { m with tables := m'.tables }
  | .memory => { m with memories := m'.memories }
  | .global => { m with globals := m'.globals }
  | .exports => { m with exports := m'.exports }
  | .start => { m with start := m'.start }
  | .element => { m with elements := m'.elements }
  | .dataCount => { m with dataCount := m'.dataCount }
  | .code => { m with
      bodies := m'.bodies, functions := m'.functions, accessors := m'.accessors }
  | .data => { m with data := m'.data }

end Contents

/-! ## Sections of entries -/

variable {α : Type}

theorem inTurn_const {P : α → Prop} {as : List α} : InTurn (fun _ => P) as ↔ ∀ a ∈ as, P a := by
  induction as with
  | nil => exact ⟨fun _ => nofun, fun _ => inTurn_nil⟩
  | cons a as ih => rw [inTurn_cons, forall_mem_cons, ih]

theorem inTurn_fresh {β : Type} {f : α → β} {P : α → Prop} {as : List α} :
    InTurn (fun before a => f a ∉ before.map f ∧ P a) as ↔ (as.map f).Nodup ∧ ∀ a ∈ as, P a := by
  have hbehind : ∀ old : List α, InTurn (fun before a => f a ∉ (old ++ before).map f ∧ P a) as ↔
      (as.map f).Nodup ∧ (∀ a ∈ as, f a ∉ old.map f) ∧ ∀ a ∈ as, P a := by
    induction as with
    | nil =>
      intro old
      exact ⟨fun _ => ⟨.nil, nofun, nofun⟩, fun _ => inTurn_nil⟩
    | cons a as ih =>
      intro old
      have hstep := ih (old ++ [a])
      simp only [append_assoc, singleton_append] at hstep
      rw [inTurn_cons, hstep, append_nil, map_cons, nodup_cons, forall_mem_cons, forall_mem_cons]
      simp only [map_append, mem_append, not_or, map_cons, map_nil,
        mem_singleton, mem_map, not_exists, not_and]
      constructor
      · rintro ⟨⟨hnew, hp⟩, hnd, hold, hps⟩
        exact ⟨⟨fun b hb heq => (hold b hb).2 heq, hnd⟩, ⟨hnew, fun b hb => (hold b hb).1⟩, hp, hps⟩
      · rintro ⟨⟨hnot, hnd⟩, ⟨hnew, hold⟩, hp, hps⟩
        exact ⟨⟨hnew, hp⟩, hnd, fun b hb => ⟨hold b hb, hnot b hb⟩, hps⟩
  refine (hbehind []).trans ?_
  exact ⟨fun h => ⟨h.1, h.2.2⟩, fun h => ⟨h.1, (fun _ _ hmem => nomatch hmem), h.2⟩⟩

namespace Draft

open Decode

theorem reads_entryList {α : Type} {G : List UInt8 → α → Prop} {J : List α → α → Prop}
    {D : List α → Draft}
    (h : ∀ as, Reads (read (D as)) fun bs d => ∃ a, G bs a ∧ J as a ∧ d = D (as ++ [a])) :
    Reads (do fold read (← u32) (D [])) fun bs d =>
      ∃ as, Vec G bs as ∧ InTurn J as ∧ d = D as := by
  refine (Reads.u32.bind fun n => Reads.entries h n).congr fun bs d => ?_
  constructor
  · rintro ⟨bs1, bs2, n, rfl, hn, as, rfl, he, ht, rfl⟩
    exact ⟨as, ⟨bs1, bs2, rfl, hn, he⟩, ht, rfl⟩
  · rintro ⟨as, ⟨bs1, bs2, rfl, hn, he⟩, ht, rfl⟩
    exact ⟨bs1, bs2, as.length, rfl, hn, as, rfl, he, ht, rfl⟩

end Draft

namespace Contents

open Draft

variable {options : CompileOptions} (m : Contents) (seen : Bool) (refs : Array (Nat × Nat))

def draft (options : CompileOptions) (m : Contents) (seen : Bool) (refs : Array (Nat × Nat)) :
    Draft :=
  ⟨m.module options, m.dataCount, seen, refs⟩

def Reading (options : CompileOptions) (m : Contents) (kind : Section) (seen : Bool)
    (refs : Array (Nat × Nat)) (bs : List UInt8) (d : Draft) : Prop :=
  ∃ m', (m.set m' kind).SectionForm bs kind ∧ (m.set m' kind).Judged options kind ∧
    d = (m.set m' kind).draft options seen refs

variable {kind : Section} {m' : Contents}

theorem reads_listSection {α : Type} (G : List UInt8 → α → Prop) (J : List α → α → Prop)
    (put : List α → Contents) (get : Contents → List α) {m : Contents} {seen : Bool}
    {refs : Array (Nat × Nat)}
    (hsection : ∀ d : Draft, d.readSection options kind = Decode.u32 >>= fun n =>
      Decode.fold read n d)
    (hm : m = put []) (hset : ∀ m', m.set m' kind = put (get m')) (hget : ∀ as, get (put as) = as)
    (hform : ∀ as bs, (put as).SectionForm bs kind ↔ Vec G bs as)
    (hjudged : ∀ as, (put as).Judged options kind ↔ InTurn J as)
    (hread : ∀ as, Reads (read ((put as).draft options seen refs)) fun bs d => ∃ a, G bs a ∧
      J as a ∧ d = (put (as ++ [a])).draft options seen refs) :
    Reads ((m.draft options seen refs).readSection options kind)
      (m.Reading options kind seen refs) := by
  have hlist := @reads_entryList _ _ _ _ (fun as => (put as).draft options seen refs) hread
  rw [hsection, show m.draft options seen refs = (put []).draft options seen refs by rw [← hm]]
  refine hlist.congr fun bs d => ?_
  constructor
  · rintro ⟨as, hv, ht, rfl⟩
    have heq : m.set (put as) kind = put as := by rw [hset, hget]
    refine ⟨put as, ?_⟩
    rw [heq]
    exact ⟨(hform as bs).mpr hv, (hjudged as).mpr ht, rfl⟩
  · rintro ⟨m', hv, hj, rfl⟩
    rw [hset] at hv hj
    rw [hset]
    exact ⟨get m', (hform _ bs).mp hv, (hjudged _).mp hj, rfl⟩

theorem reads_typeSection (h : m.Absent .type) :
    Reads ((m.draft options seen refs).readSection options .type)
      (m.Reading options .type seen refs) := by
  refine reads_listSection FuncType.Form (fun _ _ => True) (fun types => { m with types })
    Contents.types (fun _ => rfl) (congrArg (fun types => { m with types }) h) (fun _ => rfl)
    (fun _ => rfl) (fun _ _ => .rfl) (fun as => ⟨fun _ _ _ _ => trivial, fun _ => trivial⟩)
    fun types => ?_
  refine (reads_readType _).congr fun bs d => exists_congr fun type => and_congr_right fun _ => ?_
  simp [draft, module, withSpaces, Draft.spaces, spaces, IndexSpaces.addType, descs]

theorem reads_functionSection (h : m.Absent .function) :
    Reads ((m.draft options seen refs).readSection options .function)
      (m.Reading options .function seen refs) := by
  refine reads_listSection (Leb128.Unsigned 32) (fun _ typeIndex => typeIndex < m.types.length)
    (fun funcs => { m with funcs }) Contents.funcs (fun _ => rfl)
    (congrArg (fun funcs => { m with funcs }) h) (fun _ => rfl)
    (fun _ => rfl) (fun _ _ => .rfl) (fun _ => inTurn_const.symm) fun funcs => ?_
  refine (reads_readFunction _).congr fun bs d => exists_congr fun typeIndex =>
    and_congr_right fun _ => ?_
  simp [draft, module, withSpaces, Draft.spaces, spaces, descs]

theorem reads_tableSection (h : m.Absent .table) :
    Reads ((m.draft options seen refs).readSection options .table)
      (m.Reading options .table seen refs) := by
  refine reads_listSection TableType.Form (fun _ type => type.limits.min ≤ maxTableEntries)
    (fun tables => { m with tables }) Contents.tables (fun _ => rfl)
    (congrArg (fun tables => { m with tables }) h) (fun _ => rfl)
    (fun _ => rfl) (fun _ _ => .rfl) (fun _ => inTurn_const.symm) fun tables => ?_
  refine (reads_readTable _).congr fun bs d => exists_congr fun type => ?_
  rw [and_assoc]
  simp [draft, module, withSpaces, Draft.spaces, spaces, IndexSpaces.addTable, descs]

theorem reads_memorySection (h : m.Absent .memory) :
    Reads ((m.draft options seen refs).readSection options .memory)
      (m.Reading options .memory seen refs) := by
  refine reads_listSection Limits.Form (fun _ limits => limits.Under options.pageCap)
    (fun memories => { m with memories }) Contents.memories (fun _ => rfl)
    (congrArg (fun memories => { m with memories }) h) (fun _ => rfl)
    (fun _ => rfl) (fun _ _ => .rfl) (fun _ => inTurn_const.symm) fun memories => ?_
  refine (reads_readMemory _).congr fun bs d => exists_congr fun limits => ?_
  rw [and_assoc]
  simp [draft, module, withSpaces, Draft.spaces, spaces, IndexSpaces.addMemory, descs]

theorem reads_exportSection (h : m.Absent .exports) :
    Reads ((m.draft options seen refs).readSection options .exports)
      (m.Reading options .exports seen refs) := by
  refine reads_listSection Export.Form
    (fun before e => e.name ∉ before.map Export.name ∧ requireItem m.spaces e.index e.kind = .ok ())
    (fun exports => { m with exports }) Contents.exports (fun _ => rfl)
    (congrArg (fun exports => { m with exports }) h) (fun _ => rfl)
    (fun _ => rfl) (fun _ _ => .rfl) (fun _ => inTurn_fresh.symm) fun exports => ?_
  refine (reads_readExport _).congr fun bs d => exists_congr fun e => and_congr_right fun _ => ?_
  rw [and_assoc]
  simp [draft, module, Draft.spaces, spaces, descs]

theorem reads_elementSection (h : m.Absent .element) :
    Reads ((m.draft options seen refs).readSection options .element)
      (m.Reading options .element seen refs) := by
  refine reads_listSection ElementSegment.Form (fun _ segment => segment.Judged m.spaces)
    (fun elements => { m with elements }) Contents.elements (fun _ => rfl)
    (congrArg (fun elements => { m with elements }) h) (fun _ => rfl)
    (fun _ => rfl) (fun _ _ => .rfl) (fun _ => inTurn_const.symm) fun elements => ?_
  refine (reads_readElement _).congr fun bs d => exists_congr fun segment =>
    and_congr_right fun _ => ?_
  simp [draft, module, Draft.spaces, spaces, descs]

theorem reads_importSection (h : ∀ kind : Section, 2 ≤ kind.rank → m.Absent kind) :
    Reads ((m.draft options seen refs).readSection options .imports)
      (m.Reading options .imports seen refs) := by
  have hfuncs : m.funcs = [] := h .function (by decide)
  have htables : m.tables = [] := h .table (by decide)
  have hmemories : m.memories = [] := h .memory (by decide)
  have hglobals : m.globals = [] := h .global (by decide)
  refine reads_listSection Import.Form (fun _ i => i.desc.Judged m.types.length options.pageCap)
    (fun imports => { m with imports }) Contents.imports (fun _ => rfl)
    (congrArg (fun imports => { m with imports }) (h .imports (by decide))) (fun _ => rfl)
    (fun _ => rfl) (fun _ _ => .rfl) (fun _ => inTurn_const.symm) fun imports => ?_
  have hspaces : ∀ i : Import, i.desc.addTo { m with imports }.spaces =
      { m with imports := imports ++ [i] }.spaces := by
    intro i
    obtain ⟨_, _, desc⟩ := i
    cases desc <;> simp [spaces, descs, ImportDesc.addTo, IndexSpaces.addTable,
      IndexSpaces.addMemory, IndexSpaces.addGlobal, ImportDesc.func?, ImportDesc.table?,
      ImportDesc.memory?, ImportDesc.global?, hfuncs, htables, hmemories, hglobals]
  refine (reads_readImport _).congr fun bs d => exists_congr fun i => and_congr_right fun _ => ?_
  refine and_congr_right fun _ => ?_
  have hdraft := hspaces i
  simp only [draft, module, Draft.spaces] at hdraft ⊢
  rw [hdraft]
  simp

theorem admitted_globals {gs gs' : List (GlobalType × ConstExpr)} {globals : Bool}
    {type : ValueType} {expr : ConstExpr}
    (h : expr.Admitted { m with globals := gs }.spaces globals type) :
    expr.Admitted { m with globals := gs' }.spaces globals type := by
  have hget : ∀ index, index < { m with globals := gs }.spaces.importedGlobals →
      { m with globals := gs' }.spaces.globals[index]? =
        { m with globals := gs }.spaces.globals[index]? := by
    intro index hlt
    simp only [spaces, descs, getElem?_toArray] at hlt ⊢
    rw [getElem?_append_left hlt, getElem?_append_left hlt]
  obtain ⟨htype, hreads⟩ := h
  cases htype with
  | i32 => exact (ConstExpr.HasType.i32 _).admitted nofun _
  | i64 => exact (ConstExpr.HasType.i64 _).admitted nofun _
  | f32 => exact (ConstExpr.HasType.f32 _).admitted nofun _
  | f64 => exact (ConstExpr.HasType.f64 _).admitted nofun _
  | refNull => exact (ConstExpr.HasType.refNull _).admitted nofun _
  | @refFunc func type hf =>
    have hf' : { m with globals := gs' }.spaces.funcType func = .ok type := hf
    exact (ConstExpr.HasType.refFunc hf').admitted nofun _
  | @globalGet index global hi hg =>
    obtain ⟨hallowed, global', hg', himm⟩ := hreads index rfl
    refine ⟨.globalGet hi ((hget index hi).trans hg), fun index' heq => ?_⟩
    cases heq
    exact ⟨hallowed, global', (hget index hi).trans hg', himm⟩

theorem reads_globalSection (h : m.Absent .global) :
    Reads ((m.draft options seen refs).readSection options .global)
      (m.Reading options .global seen refs) := by
  refine reads_listSection Global.Form (fun _ g => g.2.Admitted m.spaces true g.1.content)
    (fun globals => { m with globals }) Contents.globals (fun _ => rfl)
    (congrArg (fun globals => { m with globals }) h) (fun _ => rfl)
    (fun _ => rfl) (fun _ _ => .rfl) (fun globals => ?_) fun globals => ?_
  · refine Iff.trans ?_ inTurn_const.symm
    exact forall_congr' fun g => forall_congr' fun _ => ⟨m.admitted_globals, m.admitted_globals⟩
  · refine (reads_readGlobal _).congr fun bs d => exists_congr fun g => and_congr_right fun _ => ?_
    refine and_congr ⟨m.admitted_globals, m.admitted_globals⟩ ?_
    simp [draft, module, Draft.spaces, spaces, IndexSpaces.addGlobal, descs]

theorem reads_startSection : Reads ((m.draft options seen refs).readSection options .start)
      (m.Reading options .start seen refs) := by
  refine (reads_readStart _).congr fun bs d => ?_
  constructor
  · rintro ⟨func, hf, htype, rfl⟩
    refine ⟨{ m with start := some func }, ⟨func, hf, rfl⟩, fun func' heq => ?_, rfl⟩
    cases heq
    exact htype
  · rintro ⟨m', ⟨func, hf, heq⟩, hj, rfl⟩
    have hstart : m'.start = some func := heq
    refine ⟨func, hf, hj func heq, ?_⟩
    rw [set, hstart]
    rfl

theorem reads_dataCountSection : Reads ((m.draft options seen refs).readSection options .dataCount)
      (m.Reading options .dataCount seen refs) := by
  refine (Reads.u32.map fun count =>
    { m.draft options seen refs with dataCount := some count }).congr fun bs d => ?_
  constructor
  · rintro ⟨count, hc, rfl⟩
    exact ⟨{ m with dataCount := some count }, ⟨count, hc, rfl⟩, trivial, rfl⟩
  · rintro ⟨m', ⟨count, hc, heq⟩, -, rfl⟩
    have hcount : m'.dataCount = some count := heq
    refine ⟨count, hc, ?_⟩
    rw [set, hcount]
    rfl

theorem reads_declared {d : Decode Draft} {H : List UInt8 → Draft → Prop} (declared : Option Nat)
    (n at_ : Nat) (h : Reads d H) :
    Reads (match declared with
      | some expected =>
        if expected ≠ n then (Decode.fail .dataCountMismatch at_ : Decode Unit) >>= fun _ => d
        else d
      | none => d) fun bs found => (∀ count, declared = some count → count = n) ∧ H bs found := by
  cases declared with
  | none => exact h.congr fun bs found => ⟨fun hf => ⟨nofun, hf⟩, And.right⟩
  | some expected =>
    refine (Reads.refuse (C := expected ≠ n) _ _ h).congr fun bs found =>
      and_congr_left fun _ => ?_
    rw [Decidable.not_not]
    exact ⟨fun heq count hc => (Option.some.inj hc).symm.trans heq, fun hall => hall expected rfl⟩

theorem reads_dataSection (h : m.Absent .data) :
    Reads ((m.draft options seen refs).readSection options .data)
      (m.Reading options .data true refs) := by
  have hentries : ∀ n, Reads (Decode.fold readData n (m.draft options true refs)) fun bs d =>
      ∃ data : List DataSegment, data.length = n ∧ Each DataSegment.Form data bs ∧
        (∀ segment ∈ data, segment.Judged m.spaces) ∧
        d = { m with data }.draft options true refs := by
    intro n
    have hread : ∀ data, Reads (readData ({ m with data }.draft options true refs)) fun bs d =>
        ∃ segment : DataSegment, segment.Form bs ∧ segment.Judged m.spaces ∧
          d = { m with data := data ++ [segment] }.draft options true refs := by
      intro data
      refine (reads_readData _).congr fun bs d => exists_congr fun segment =>
        and_congr_right fun _ => ?_
      simp [draft, module, Draft.spaces, spaces, descs]
    have hlist := @Reads.entries _ _ _ _ (fun _ segment => DataSegment.Judged m.spaces segment)
      (fun data => { m with data }.draft options true refs) hread n
    rw [show m.draft options true refs = { m with data := [] }.draft options true refs from
      congrArg (fun data => { m with data }.draft options true refs) h]
    exact hlist.congr fun bs d => exists_congr fun data => by rw [inTurn_const]
  refine Reads.position fun at_ => ?_
  refine (Reads.u32.bind (H := fun n bs d => (∀ count, m.dataCount = some count → count = n) ∧
    ∃ data : List DataSegment, data.length = n ∧ Each DataSegment.Form data bs ∧
      (∀ segment ∈ data, segment.Judged m.spaces) ∧
      d = { m with data }.draft options true refs) fun n => ?_).congr fun bs d => ?_
  · exact reads_declared m.dataCount n at_ (hentries n)
  · constructor
    · rintro ⟨bs1, bs2, n, rfl, hn, hcount, data, rfl, he, hj, rfl⟩
      exact ⟨{ m with data }, ⟨bs1, bs2, rfl, hn, he⟩, ⟨hj, hcount⟩, rfl⟩
    · rintro ⟨m', ⟨bs1, bs2, rfl, hn, he⟩, ⟨hj, hcount⟩, rfl⟩
      exact ⟨bs1, bs2, m'.data.length, rfl, hn, hcount, m'.data, rfl, he, hj, rfl⟩

theorem definedFuncs_spaces : m.spaces.definedFuncs = m.funcs.length := by
  simp [IndexSpaces.definedFuncs, spaces]

def outline (options : CompileOptions) (m : Contents) (seen : Bool) : Draft × List Nat :=
  (m.draft options seen #[], noted (m.context options) m.bodies)

theorem eq_draft {m : Contents} {seen : Bool} (h : d.outline = m.outline options seen) :
    d = m.draft options seen d.dataRefs := by
  obtain ⟨module, dataCount, dataSeen, refs⟩ := d
  cases congrArg Prod.fst h
  rfl

theorem shows_codeSection {m : Contents} {seen : Bool} (hm : m.Absent .code)
    (hd : d.outline = m.outline options seen) :
    Shows Draft.outline (d.readSection options .code) fun bs out => ∃ m',
      (m.set m' .code).SectionForm bs .code ∧ (m.set m' .code).Judged options .code ∧
        out = (m.set m' .code).outline options seen := by
  have hctx : d.bodyContext options = m.context options := by
    rw [eq_draft hd]
    rfl
  have hcount : d.spaces.definedFuncs = m.funcs.length := by
    rw [eq_draft hd]
    exact m.definedFuncs_spaces
  -- there are no bodies before
  have hfold : ∀ n, Shows Draft.outline (Decode.fold (readCode (d.bodyContext options)) n d)
      fun bs out => ∃ m' : Contents, m'.bodies.length = n ∧ Each (Sized Body.Form) m'.bodies bs ∧
        Body.Lowered (m.context options) m.spaces.importedFuncs .empty m'.bodies m'.functions
          m'.accessors ∧ out = (m.set m' .code).outline options seen := by
    have hfunctions : m.functions = [] := hm.2.1
    have hsize : (m.outline options seen).1.module.functions.size = 0 :=
      congrArg List.length hfunctions
    have hnone : (m.outline options seen).1.module.accessors = .empty := hm.2.2
    have hout : ∀ m' : Contents, ((m.outline options seen).1.addFunctions m'.functions m'.accessors,
        (m.outline options seen).2 ++ noted (m.context options) m'.bodies) =
          (m.set m' .code).outline options seen := by
      intro m'
      simp only [outline, draft, module, addFunctions, hfunctions, show m.bodies = [] from hm.1,
        noted_nil, nil_append, Array.empty_append]
      rfl
    refine fun n => (shows_readCodes n d).congr fun bs out => ?_
    rw [AddsBodies, hd, hctx, hsize, hnone]
    constructor
    · rintro ⟨bodies, functions, accessors, hlen, he, hl, rfl⟩
      exact ⟨{ m with bodies, functions, accessors }, hlen, he, hl,
        hout { m with bodies, functions, accessors }⟩
    · rintro ⟨m', hlen, he, hl, rfl⟩
      exact ⟨_, _, _, hlen, he, hl, (hout m').symm⟩
  intro c out c'
  constructor
  · rintro ⟨d', h, rfl⟩
    obtain ⟨at_, c0, hpos, h0⟩ := bind_eq_ok.mp h
    cases hpos
    obtain ⟨count, c1, hread, h1⟩ := bind_eq_ok.mp h0
    by_cases hne : count = d.spaces.definedFuncs
    · rw [if_neg (not_not_intro hne)] at h1
      obtain ⟨bs1, hu, ho1⟩ := (Reads.u32 _ _ _).mp hread
      obtain ⟨bs2, ⟨m', rfl, he, hl, hout⟩, ho2⟩ := (hfold count _ _ _).mp ⟨d', h1, rfl⟩
      exact ⟨bs1 ++ bs2, ⟨m', ⟨bs1, bs2, rfl, hu, he⟩, ⟨hne.trans hcount, hl⟩, hout⟩, ho1.trans ho2⟩
    · rw [if_pos hne] at h1
      cases h1
  · rintro ⟨_, ⟨m', ⟨bs1, bs2, rfl, hu, he⟩, ⟨hlength, hl⟩, rfl⟩, ho⟩
    obtain ⟨c1, ho1, ho2⟩ := ho.split
    obtain ⟨d', hread, hout⟩ :=
      (hfold m'.bodies.length _ _ _).mpr ⟨bs2, ⟨m', rfl, he, hl, rfl⟩, ho2⟩
    have hpos : Decode.position c = .ok c.position c := rfl
    refine ⟨d', ?_, hout⟩
    show readCodeSection options d c = _
    rw [readCodeSection, bind_of_ok hpos, bind_of_ok ((Reads.u32 c _ c1).mpr ⟨bs1, hu, ho1⟩)]
    exact (congrFun (if_neg (not_not_intro (hlength.trans hcount.symm))) c1).trans hread

def seenAfter (seen : Bool) : Section → Bool
  | .data => true
  | _ => seen

theorem reads_section (hcustom : kind ≠ .custom) (hcode : kind ≠ .code)
    (h : ∀ k : Section, kind.rank ≤ k.rank → m.Absent k) :
    Reads ((m.draft options seen refs).readSection options kind)
      (m.Reading options kind (seenAfter seen kind) refs) := by
  have hkind := h kind (Nat.le_refl _)
  cases kind with
  | custom => exact absurd rfl hcustom
  | type => exact m.reads_typeSection seen refs hkind
  | imports => exact m.reads_importSection seen refs h
  | function => exact m.reads_functionSection seen refs hkind
  | table => exact m.reads_tableSection seen refs hkind
  | memory => exact m.reads_memorySection seen refs hkind
  | global => exact m.reads_globalSection seen refs hkind
  | exports => exact m.reads_exportSection seen refs hkind
  | start => exact m.reads_startSection seen refs
  | element => exact m.reads_elementSection seen refs hkind
  | dataCount => exact m.reads_dataCountSection seen refs
  | code => exact absurd rfl hcode
  | data => exact m.reads_dataSection seen refs hkind

theorem noted_set {m : Contents} (hcode : kind ≠ .code)
    (h : ∀ k : Section, kind.rank ≤ k.rank → m.Absent k) :
    noted ((m.set m' kind).context options) (m.set m' kind).bodies =
      noted (m.context options) m.bodies := by
  cases kind with
  | code => exact absurd rfl hcode
  | dataCount =>
    have hbodies : m.bodies = [] := (h .code (by decide)).1
    unfold noted
    rw [show (m.set m' .dataCount).bodies = [] from hbodies, hbodies]
    split <;> split <;> rfl
  | _ => rfl

theorem shows_section {m : Contents} {seen : Bool} (hcustom : kind ≠ .custom)
    (h : ∀ k : Section, kind.rank ≤ k.rank → m.Absent k) (hd : d.outline = m.outline options seen) :
    Shows Draft.outline (d.readSection options kind) fun bs out => ∃ m',
      (m.set m' kind).SectionForm bs kind ∧ (m.set m' kind).Judged options kind ∧
        out = (m.set m' kind).outline options (seenAfter seen kind) := by
  by_cases hcode : kind = .code
  · subst hcode
    exact shows_codeSection (h .code (Nat.le_refl _)) hd
  · rw [eq_draft hd]
    refine (m.reads_section seen d.dataRefs hcustom hcode h).shows.congr fun bs out => ?_
    have hout : ∀ m', ((m.set m' kind).draft options (seenAfter seen kind) d.dataRefs).outline =
        (m.set m' kind).outline options (seenAfter seen kind) := fun m' =>
      Prod.ext rfl ((congrArg Prod.snd hd).trans (noted_set hcode h).symm)
    constructor
    · rintro ⟨_, ⟨m', hform, hj, rfl⟩, rfl⟩
      exact ⟨m', hform, hj, hout m'⟩
    · rintro ⟨m', hform, hj, rfl⟩
      exact ⟨_, ⟨m', hform, hj, rfl⟩, hout m'⟩

end Contents

end Wasm
