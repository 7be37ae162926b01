import Wasm.Proofs.Typed.Flow
import Wasm.Proofs.Typed.Readiness
import Wasm.Proofs.World.Basic

/-! # Stores that stay typed

Whatever the host does to a sound store leads to a sound store (`Store.Act.sound`). -/

namespace Wasm

open List Decode

variable {m : Module} {s : Store} {r : Resolved} {bindings : List Binding} {bs : List UInt8}
  {func : CompiledFunction} {options : CompileOptions} {binary : ByteArray} {home : InstanceAddr}
  {inst : Instance} {tables : List TableInst}

/-! ## Functions of accepted modules -/

def Instr.InFormat : Instr → Prop
  | .load access _ => access ∈ Decode.loads
  | .store access _ => access ∈ Decode.stores
  | _ => True

variable {α : Type} {strict : Prop} {P : Option Ref → Prop}

theorem mem_of_entry? {table : Array α} {first code : Nat} {a : α}
    (h : entry? table first code = some a) : a ∈ table := by
  unfold entry? at h
  split at h
  · exact Array.mem_of_getElem? h
  · cases h

namespace Instr

variable {i : Instr}

theorem inFormat_of_numeric {n : Nat} (h : i.numericOpcode? = some n) : i.InFormat := by
  cases i with
  | load | store => cases h
  | _ => trivial

theorem PrefixedForm.inFormat {sub : Nat} (h : PrefixedForm sub bs i) : i.InFormat := by
  unfold PrefixedForm at h
  split at h
  all_goals grind [Alone, OneIndex, TwoIndices, InFormat]

theorem Form.inFormat (h : Form bs i) : i.InFormat := by
  obtain ⟨code, imm, rfl, h⟩ := h
  unfold OpcodeForm at h
  split at h
  case h_33 =>
      obtain ⟨_, _, _, -, -, h⟩ := h
      exact h.inFormat
  case h_34 =>
      obtain ⟨access, arg, hentry, -, rfl⟩ | ⟨access, arg, hentry, -, rfl⟩ |
        ⟨j, hentry, -, rfl⟩ := h
      · exact mem_of_entry? (entry?_loads_iff.mpr hentry)
      · exact mem_of_entry? (entry?_stores_iff.mpr hentry)
      · exact inFormat_of_numeric hentry
  all_goals grind [Alone, OneIndex, TwoIndices, BranchTable, SelectType, InFormat]

end Instr

namespace Body

variable {ctx : BodyContext} {index : Nat} {accessors accessors' : Accessors}

variable {body : Body}

theorem Compiles.type_eq (h : body.Compiles ctx index accessors func accessors') :
    ctx.spaces.funcType index = .ok func.type := by
  cases h with
  | @intro type sc e _ ht hmax hl hc hf =>
    rw [(Assembly.finish_eq_ok hf).1]
    exact (hl.emission_extends.heads.trans (sc.heads_emitEnd e)).header.2.1 ▸ ht

theorem Compiles.translation (h : body.Compiles ctx index accessors func accessors')
    (hspaces : ctx.spaces = m.spaces) (helements : ctx.elemTypes = m.elements.map (·.type))
    (hdata : ∀ data ∈ body.dataIndices, data < m.data.size)
    (hformat : ∀ i ∈ body.code.instrs, i.InFormat)
    (hkeys : accessors'.keys.toList <+: m.accessors.keys.toList) :
    Nonempty (Translation m func) := by
  have htype := h.type_eq
  have hindex := h.funcIndex_eq
  cases h with
  | @intro type sc e _ ht hmax hl hc hf =>
    cases ht.symm.trans htype
    subst hindex
    exact ⟨{
      ctx := body.context ctx func.type.params
      body, accessors
      last := sc
      emission := e
      spaces := hspaces
      elements := helements
      locals := rfl
      data := hdata
      loads := fun access arg hi => hformat _ hi
      stores := fun access arg hi => hformat _ hi
      lowers := hl
      closes := hc
      finish := hf
      keys := hkeys }⟩

end Body

theorem Contents.Written.body_form {m : Contents} (h : m.Written bs) :
    ∀ body ∈ m.bodies, ∃ bs, Body.Form bs body := by
  intro body hb
  obtain ⟨_, bs1, bs2, -, -, hform⟩ := h.entries .code nofun (fun _ => id) And.left body hb
  exact ⟨bs2, hform⟩

theorem Module.exists_translation (h : Module.compile options binary = .ok m) {i : Nat}
    (hf : m.functions[i]? = some func) :
    Nonempty (Translation m func) ∧
      m.spaces.funcType (m.spaces.importedFuncs + i) = .ok func.type := by
  obtain ⟨contents, hwritten, hvalid, rfl⟩ := Contents.exists_of_compile h
  obtain ⟨-, hlowered⟩ := hvalid.judged .code
  have hf' : contents.functions[i]? = some func := by
    rw [← getElem?_toArray]
    exact hf
  obtain ⟨body, hbody, before, after, hc, hkeys⟩ := hlowered.compiles hf'
  have hbody := mem_of_getElem? hbody
  obtain ⟨bs, bs0, bs1, bs2, -, -, -, hinstrs⟩ := hwritten.body_form body hbody
  refine ⟨hc.translation rfl rfl (fun data hd => ?_) (fun i hi => ?_) hkeys, hc.type_eq⟩
  · show data < contents.data.toArray.size
    exact hvalid.dataIndices body hbody data hd
  · obtain ⟨bs, hform⟩ := hinstrs.exists_form i (mem_append_left _ hi)
    exact hform.inFormat

/-! ## Sound stores -/

/-- Accepted instances, and values of their types. -/
structure Store.Sound (strict : Prop) (s : Store) : Prop where
  hosts : ∃ binaries, s.Hosts binaries
  alive : strict → none ∉ s.instances
  typed : s.Typed strict

namespace Store

variable {strict : Prop} {s' : Store}

theorem sound_empty : Store.empty.Sound strict where
  hosts := ⟨fun _ => .empty, hosts_empty _⟩
  alive _ := Array.not_mem_empty _
  typed :=
    ⟨(fun _ hg => nomatch hg), (fun _ _ ht => nomatch ht), (fun _ _ _ hinst => nomatch hinst)⟩

theorem Sound.exists_instance (h : s.Sound True) (hlt : home.index < s.instances.size) :
    ∃ inst, s.instance? home = some inst := by
  have hget := Array.getElem?_eq_getElem hlt
  cases hinst : s.instances[home.index] with
  | none => exact absurd (hinst ▸ Array.getElem_mem hlt) (h.alive trivial)
  | some inst => exact ⟨inst, by rw [instance?, hget, hinst]; rfl⟩

theorem Sound.callee (h : s.Sound strict) {addr : FuncAddr} {type : FuncType} {index : Nat}
    (hentry : s.funcs[addr.index]? = some (.wasm type home index))
    (hinst : s.instance? home = some inst) :
    ∃ func, inst.module.functions[index]? = some func ∧ func.type = type := by
  obtain ⟨binaries, hhosts⟩ := h.hosts
  obtain ⟨-, howned⟩ := hhosts.owned _ (Array.mem_of_getElem? hentry)
  obtain ⟨hindex, htype⟩ := howned inst hinst
  obtain ⟨options, hcompile⟩ := hhosts.compiled home inst hinst
  have hfunc := Array.getElem?_eq_getElem hindex
  have htype' := (Module.exists_translation hcompile hfunc).2
  rw [htype] at htype'
  exact ⟨_, hfunc, (Except.ok.inj htype').symm⟩

theorem Sound.callable (h : s.Sound True) (addr : FuncAddr) (type : FuncType)
    (ht : s.funcType? addr = some type) : s.Callable addr := by
  obtain ⟨binaries, hhosts⟩ := h.hosts
  obtain ⟨entry, hentry, rfl⟩ := Option.map_eq_some_iff.mp ht
  have howns := hhosts.owned entry (Array.mem_of_getElem? hentry)
  unfold Callable
  rw [hentry]
  cases entry with
  | host => trivial
  | wasm type home index =>
    obtain ⟨inst, hhome⟩ := h.exists_instance howns.1
    obtain ⟨func, hfunc, htype⟩ := h.callee hentry hhome
    exact ⟨inst, func, hhome, hfunc, htype⟩

theorem Sound.evolves (h : s.Sound strict) (he : s.Evolves strict s') : s'.Sound strict where
  hosts := by
    obtain ⟨binaries, hhosts⟩ := h.hosts
    exact ⟨binaries, hhosts.agrees he.agrees⟩
  alive hstrict := he.agrees.instances ▸ h.alive hstrict
  typed := he.typed

theorem Sound.self_evolves (h : s.Sound strict) : s.Evolves strict s := ⟨.refl s, h.typed⟩

end Store

/-! ## New instances -/

theorem Resolved.Given.type?_eval (h : r.Given s m.spaces.types bindings m.imports.toList)
    (hm : m.Consistent) (hs : s.Typed strict) {expr : ConstExpr} {type : ValueType}
    (ht : expr.HasType m.spaces type) (funcs : Array FuncAddr) :
    (expr.eval s funcs r.globals).type? = some type := by
  cases ht with
  | i32 | i64 | f32 | f64 | refFunc => rfl
  | refNull => exact Value.type?_zero _
  | globalGet himported htype =>
    have hsize := hm.listed.globals.size_given ImportDesc.isSome_global? h.globals
    have haddr := Array.getElem?_eq_getElem (hsize.symm ▸ himported)
    obtain ⟨i, type', -, htype', hdesc, hgives⟩ :=
      hm.listed.globals.given ImportDesc.isSome_global? h.globals haddr
    obtain ⟨_, g, heq, hg, rfl⟩ := hgives.global
    rw [heq] at hdesc
    cases hdesc
    cases htype.symm.trans htype'
    rw [ConstExpr.eval, haddr]
    dsimp only
    rw [hg]
    exact hs.globals g (Array.mem_of_getElem? hg)

theorem Table.all_create {ρ : Type} {P : Option ρ → Prop} (hP : P none) {initial : Nat}
    {maximum : Option Nat} {t : Table ρ} (h : Table.create initial maximum = .ok t) : t.All P := by
  unfold Table.create at h
  split at h
  · cases h
    exact fun entry hentry => (Array.eq_of_mem_replicate hentry).symm ▸ hP
  · cases h

theorem Module.typed_newTables (h : m.newTables = .ok tables) :
    ∀ t ∈ tables, t.table.All (Ref.Of t.element) := by
  intro t ht
  obtain ⟨i, hi⟩ := mem_iff_getElem?.mp ht
  obtain ⟨type, -, hcreate⟩ := exists_of_forall₂ (forall₂_of_mapM h).flip hi
  obtain ⟨table, htable, heq⟩ := except_bind_eq_ok.mp hcreate
  cases heq
  exact Table.all_create trivial htable

theorem Module.typed_newGlobals (hr : r.Given s m.spaces.types bindings m.imports.toList)
    (hm : m.Consistent) (hs : s.Typed strict) (funcs : Array FuncAddr) (home : InstanceAddr) :
    ∀ g ∈ m.newGlobals s funcs r.globals home, g.value.type? = some g.type.content := by
  intro g hg
  obtain ⟨⟨init, type⟩, hpair, rfl⟩ := mem_map.mp hg
  exact hr.type?_eval hm hs ((forall₂_iff_zip.mp hm.inits).2 hpair) funcs

namespace Store

variable {strict : Prop} {s' : Store}

theorem Typed.addInstance (hs : s.Typed strict) (hm : m.Consistent)
    (hr : r.Given s m.spaces.types bindings m.imports.toList) (ht : m.newTables = .ok tables)
    (hplaced : ∀ addr inst, s.instance? addr = some inst → inst.Placed s) (memories : List Memory)
    (limit : Nat) : (s.addInstance m r tables memories limit).2.2.Typed strict := by
  rw [addInstance_eq]
  constructor
  · intro g hg
    rcases Array.mem_append.mp hg with hg | hg
    · exact hs.globals g hg
    · exact Module.typed_newGlobals hr hm hs _ _ g (mem_toArray.mp hg)
  · intro hstrict t htable
    rcases Array.mem_append.mp htable with htable | htable
    · exact hs.tables hstrict t htable
    · exact Module.typed_newTables ht t (mem_toArray.mp htable)
  · intro hstrict addr inst hinst i segment a entries hsegment ha hentries
    rw [instance?_of_push rfl] at hinst
    split at hinst
    · -- the segments of the new instance hold the values of their items
      cases hinst
      rw [getElem?_freshAddrs _ _ (Array.getElem?_eq_some_iff.mp hsegment).1] at ha
      cases ha
      rw [getElem?_append_add, getElem?_map, Array.getElem?_toList, hsegment] at hentries
      cases hentries
      intro entry hentry
      obtain ⟨item, hitem, rfl⟩ := Array.mem_map.mp hentry
      have hfits := hm.elements segment (Array.mem_of_getElem? hsegment)
      exact Ref.of_ofValue? (hr.type?_eval hm hs (hfits.items item hitem) _)
    · obtain ⟨a', ha', hlt⟩ := (hplaced addr inst hinst).elems i segment hsegment
      cases ha.symm.trans ha'
      rw [Array.getElem?_append_left hlt] at hentries
      exact hs.elems hstrict addr inst hinst i segment a entries hsegment ha hentries

end Store

/-! ### Segments -/

namespace Instance

variable {strict : Prop} {s0 : Store}

theorem maintains_applyElement (hhome : s0.instance? home = some inst) (hplaced : inst.Placed s0)
    (hm : inst.module.Consistent) {i : Nat} {segment : ElementSegment} {addr : ElemAddr}
    (hs : inst.module.elements[i]? = some segment) (ha : inst.elems[i]? = some addr) :
    Maintains (s0.Evolves strict) (inst.applyElement segment addr) fun _ => True := by
  have hdrop : Maintains (s0.Evolves strict) (modify (·.dropElem addr) : StoreM PUnit)
      fun _ => True :=
    .changing fun s hevolves => hevolves.dropElem addr
  unfold applyElement
  split
  · exact .pure trivial
  · exact hdrop
  · next table offset hmode =>
      obtain ⟨⟨type, htype, helement⟩, -⟩ :=
        (hm.elements segment (Array.mem_of_getElem? hs)).active table offset hmode
      obtain ⟨tableAddr, htable, hd⟩ := hplaced.tables table type htype
      refine Maintains.get.bind fun s hevolves => ?_
      rw [htable]
      -- The entries are those that the segment has now, not those that it was written with.
      have hentries : strict → ∀ entry ∈ s.elems[addr.index]?.getD #[],
          Ref.Of type.element entry := by
        intro hstrict entry hentry
        cases hheld : s.elems[addr.index]? with
        | none =>
          rw [hheld] at hentry
          exact absurd hentry (by simp)
        | some entries =>
          rw [hheld] at hentry
          rw [← hevolves.agrees.instance?] at hhome
          exact helement ▸ hevolves.typed.elems hstrict home inst hhome i segment addr entries hs
            ha hheld entry hentry
      exact (Store.maintains_onTable hd fun hstrict t _ t' hall hx =>
        hall.init (hentries hstrict) hx).bind fun _ _ => hdrop

theorem maintains_applyData (segment : DataSegment) (addr : DataAddr) :
    Maintains (s0.Evolves strict) (inst.applyData segment addr) fun _ => True := by
  unfold applyData
  split
  · split
    · exact .throw _
    · exact Maintains.get.bind fun s _ => (Store.maintains_onMemory _ _).bind
        fun _ _ => .changing fun s hevolves => hevolves.dropData addr
  · exact .pure trivial

theorem maintains_applyAll {α β : Type} {apply : α → β → StoreM Unit} {pairs : List (α × β)}
    (h : ∀ pair ∈ pairs, Maintains (s0.Evolves strict) (apply pair.1 pair.2) fun _ => True) :
    Maintains (s0.Evolves strict) (applyAll apply pairs) fun _ => True := by
  induction pairs with
  | nil => exact .pure trivial
  | cons pair pairs ih =>
    obtain ⟨hpair, hpairs⟩ := forall_mem_cons.mp h
    exact hpair.bind fun _ _ => ih hpairs

theorem maintains_applySegments (hhome : s0.instance? home = some inst) (hplaced : inst.Placed s0)
    (hm : inst.module.Consistent) :
    Maintains (s0.Evolves strict) inst.applySegments fun _ => True := by
  refine (maintains_applyAll fun pair hpair => ?_).bind fun _ _ => maintains_applyAll
    fun pair _ => maintains_applyData pair.1 pair.2
  obtain ⟨i, hi⟩ := mem_iff_getElem?.mp hpair
  obtain ⟨hs, ha⟩ := getElem?_zip_eq_some.mp hi
  rw [Array.getElem?_toList] at hs ha
  exact maintains_applyElement hhome hplaced hm hs ha

end Instance

/-! ## The host -/

theorem Table.Operation.all {op : TableM Ref α} (hop : Operation P op) {t t' : Table Ref} {a : α}
    (h : t.All P) (hx : op t = .ok a t') : t'.All P := by
  cases hop with
  | set _ he => exact h.set he hx
  | grow _ he => exact h.grow he hx
  | fill _ he _ => exact h.fill he hx
  | copy => exact h.copy hx
  | copyFrom hs => exact h.copyFrom hs hx
  | init _ hs => exact h.init hs hx

theorem Table.Operation.mono {Q : Option Ref → Prop} {op : TableM Ref α} (hop : Operation P op)
    (h : ∀ entry, P entry → Q entry) : Operation Q op := by
  cases hop with
  | set _ he => exact .set _ (h _ he)
  | grow _ he => exact .grow _ (h _ he)
  | fill _ he _ => exact .fill _ (h _ he) _
  | copy => exact .copy _ _ _
  | copyFrom hs => exact .copyFrom (fun entry hmem => h _ (hs entry hmem)) _ _ _
  | init _ hs => exact .init _ (fun entry hmem => h _ (hs entry hmem)) _ _

/-- A global holds a value of its type. -/
def GlobalInst.Typed (g : GlobalInst) : Prop := g.value.type? = some g.type.content

namespace Store

variable {strict : Prop} {s' s'' : Store}

/-- Another store has the same objects and maybe more. -/
structure Includes (strict : Prop) (s s' : Store) : Prop where
  objects : s.Extends s'
  instances : strict → ∀ addr inst, s.instance? addr = some inst → s'.instance? addr = some inst

theorem Includes.trans (h : s.Includes strict s') (h' : s'.Includes strict s'') :
    s.Includes strict s'' :=
  ⟨h.objects.trans h'.objects, fun hstrict addr inst hi =>
    h'.instances hstrict addr inst (h.instances hstrict addr inst hi)⟩

theorem Agrees.includes (h : s.Agrees s') : s.Includes strict s' :=
  ⟨.of_agrees h, fun _ addr _ hinst => (h.instance? addr).trans hinst⟩

theorem Sound.extend (h : s.Sound strict) (he : s.Extends s') (hi : s'.instances = s.instances)
    (hf : ∀ func ∈ s'.funcs, func ∈ s.funcs ∨ ∃ type body, func = .host type body)
    (ht : s'.Typed strict) : s'.Sound strict ∧ s.Includes strict s' := by
  have hinst : ∀ addr, s'.instance? addr = s.instance? addr := fun addr => by
    rw [instance?, instance?, hi]
  obtain ⟨binaries, hhosts⟩ := h.hosts
  refine ⟨⟨⟨binaries, ?_, ?_, ?_⟩, fun hstrict => hi ▸ h.alive hstrict, ht⟩, he,
    fun _ addr _ hinst' => (hinst addr).trans hinst'⟩
  · exact fun addr inst hinst' => hhosts.compiled addr inst (hinst addr ▸ hinst')
  · exact fun addr inst hinst' => (hhosts.placed addr inst (hinst addr ▸ hinst')).extend he
  · intro func hfunc
    rcases hf func hfunc with hold | ⟨type, body, rfl⟩
    · have howns := hhosts.owned func hold
      cases func with
      | host => trivial
      | wasm type home index =>
        exact ⟨hi ▸ howns.1, fun inst hinst' => howns.2 inst (hinst home ▸ hinst')⟩
    · trivial

variable {limit : Nat}

theorem Sound.allocate (h : s.Sound strict) (hm : Module.compile options binary = .ok m)
    (ha : s.allocate m bindings limit = .ok (inst, home, s')) :
    s'.Sound strict ∧ s.Includes strict s' ∧ s'.instance? home = some inst := by
  obtain ⟨binaries, hhosts⟩ := h.hosts
  obtain ⟨r, tables, memories, hr, ht, -, hresult⟩ := allocate_eq_addInstance ha
  have htyped := h.typed.addInstance (Module.wellFormed_of_compile hm).toConsistent hr ht
    hhosts.placed memories limit
  have hextends := s.extends_addInstance m r tables memories limit
  have heq := s.addInstance_eq m r tables memories limit
  rw [← hresult] at htyped hextends heq
  have hhome : home = ⟨s.instances.size⟩ := congrArg (·.2.1) heq
  have hinstances : s'.instances = s.instances.push (some inst) := by
    injection heq with hinst hrest
    injection hrest with haddr hstore
    rw [hinst, hstore]
  refine ⟨⟨⟨_, hhosts.allocate hm ha⟩, ?_, htyped⟩, ⟨hextends, ?_⟩, ?_⟩
  · intro hstrict
    rw [hinstances, Array.mem_push]
    rintro (hmem | hnone)
    · exact h.alive hstrict hmem
    · cases hnone
  · intro _ addr inst' hinst'
    rw [instance?_of_lt hinstances, hinst']
    rw [instance?] at hinst'
    by_contra hge
    rw [Array.getElem?_eq_none (Nat.le_of_not_lt hge)] at hinst'
    cases hinst'
  · rw [hhome, instance?_of_push hinstances, if_pos rfl]

theorem Sound.applySegments (h : s.Sound strict) (hhome : s.instance? home = some inst)
    (hs : inst.applySegments s = .ok () s') : s.Evolves strict s' := by
  obtain ⟨binaries, hhosts⟩ := h.hosts
  obtain ⟨options, hm⟩ := hhosts.compiled home inst hhome
  exact (Instance.maintains_applySegments hhome (hhosts.placed home inst hhome)
    (Module.wellFormed_of_compile hm).toConsistent s () s' h.self_evolves hs).1

theorem Sound.start (h : s.Sound strict) (hhome : s.instance? home = some inst) {start : Nat}
    (hstart : inst.module.start = some start) :
    ∃ func, inst.funcs[start]? = some func ∧ s.funcType? func = some .nullary := by
  obtain ⟨binaries, hhosts⟩ := h.hosts
  obtain ⟨options, hm⟩ := hhosts.compiled home inst hhome
  exact (hhosts.placed home inst hhome).funcs start .nullary
    ((Module.wellFormed_of_compile hm).start start hstart)

theorem filled_of_applySegments {s1 : Store}
    (ha : s.allocate m bindings limit = .ok (inst, home, s1)) :
    s.Filled inst [] s1 ∧
      match inst.applySegments s1 with
      | .ok () s2 => ∃ segments, s1.Filled inst segments s2
      | .error _ s2 => ∃ segments, s1.Filled inst segments s2 := by
  have hallocated := allocated_of_allocate ha
  refine ⟨hallocated.filled, ?_⟩
  have hloads := hallocated.loads_applySegments
  cases hs : inst.applySegments s1 with
  | ok u s2 =>
    rw [hs] at hloads
    exact ⟨_, hloads.2.1⟩
  | error t s2 =>
    rw [hs] at hloads
    obtain ⟨front, -, -, -, -, -, -, hfilled⟩ := hloads
    exact ⟨front, hfilled⟩

theorem Hosts.forget {binaries : InstanceAddr → ByteArray} (h : s.Hosts binaries)
    (keep : InstanceAddr → Bool) : (s.forget keep).Hosts binaries where
  compiled addr inst hinst := h.compiled addr inst (instance?_of_forget hinst)
  placed addr inst hinst := (h.placed addr inst (instance?_of_forget hinst)).extend
    ⟨prefix_rfl, prefix_rfl, Nat.le_refl _, prefix_rfl, Nat.le_refl _, Nat.le_refl _⟩
  owned func hf := by
    have howns := h.owned func hf
    cases func with
    | host => trivial
    | wasm type home index =>
      refine ⟨?_, fun inst hinst => howns.2 inst (instance?_of_forget hinst)⟩
      rw [Store.forget, Array.size_mapIdx]
      exact howns.1

theorem Sound.forget (h : s.Sound strict) (hstrict : ¬ strict) (keep : InstanceAddr → Bool) :
    (s.forget keep).Sound strict ∧ s.Includes strict (s.forget keep) := by
  obtain ⟨binaries, hhosts⟩ := h.hosts
  exact ⟨⟨⟨binaries, hhosts.forget keep⟩, fun hs => absurd hs hstrict, h.typed.globals,
      fun hs => absurd hs hstrict, fun hs => absurd hs hstrict⟩,
    ⟨prefix_rfl, prefix_rfl, Nat.le_refl _, prefix_rfl, Nat.le_refl _, Nat.le_refl _⟩,
    fun hs => absurd hs hstrict⟩

theorem Sound.of_globals (h : s.Sound strict) (hstrict : ¬ strict) (ha : s.Agrees s')
    (hg : ∀ (addr : GlobalAddr) (g : GlobalInst), s.globals[addr.index]? = some g →
      s'.globals[addr.index]? = some g) : s'.Sound strict := by
  refine h.evolves ⟨ha, ?_, fun hs => absurd hs hstrict, fun hs => absurd hs hstrict⟩
  intro g' hmem
  obtain ⟨i, hi⟩ := Array.mem_iff_getElem?.mp hmem
  have hsize := congrArg Array.size ha.globals
  rw [Array.size_map, Array.size_map] at hsize
  have hlt : i < s.globals.size := hsize ▸ (Array.getElem?_eq_some_iff.mp hi).1
  have hold := Array.getElem?_eq_getElem hlt
  cases hi.symm.trans (hg ⟨i⟩ _ hold)
  exact h.typed.globals _ (Array.mem_of_getElem? hold)

theorem Act.sound (ha : s.Act strict GlobalInst.Typed s') (h : s.Sound strict) :
    s'.Sound strict ∧ s.Includes strict s' := by
  have hsame : ∀ func ∈ s.funcs, func ∈ s.funcs ∨ ∃ type body, func = FuncInst.host type body :=
    fun _ hf => .inl hf
  have hevolves : ∀ {s'}, s.Evolves strict s' → s'.Sound strict ∧ s.Includes strict s' :=
    fun he => ⟨h.evolves he, he.agrees.includes⟩
  cases ha with
  | addFunc type body =>
    refine h.extend ⟨?_, prefix_rfl, Nat.le_refl _, prefix_rfl, Nat.le_refl _,
      Nat.le_refl _⟩ rfl (fun func hf => ?_) ⟨h.typed.globals, h.typed.tables, h.typed.elems⟩
    · rw [Store.addFunc, Array.toList_push]
      exact prefix_append _ _
    · rcases Array.mem_push.mp hf with hf | rfl
      · exact .inl hf
      · exact .inr ⟨type, body, rfl⟩
  | addMemory cap _ =>
    refine h.extend ⟨prefix_rfl, prefix_rfl, ?_, prefix_rfl, Nat.le_refl _,
      Nat.le_refl _⟩ rfl hsame ⟨h.typed.globals, h.typed.tables, h.typed.elems⟩
    rw [Store.addMemory, Array.size_push]
    exact Nat.le_succ _
  | @addTable type table hcreate =>
    refine h.extend ⟨prefix_rfl, ?_, Nat.le_refl _, prefix_rfl, Nat.le_refl _,
      Nat.le_refl _⟩ rfl hsame ⟨h.typed.globals, fun hstrict t ht => ?_, h.typed.elems⟩
    · rw [Store.addTable, Array.map_push, Array.toList_push]
      exact prefix_append _ _
    · rcases Array.mem_push.mp ht with ht | rfl
      · exact h.typed.tables hstrict t ht
      · exact Table.all_create trivial hcreate
  | addGlobal hvalue =>
    refine h.extend ⟨prefix_rfl, prefix_rfl, Nat.le_refl _, ?_, Nat.le_refl _,
      Nat.le_refl _⟩ rfl hsame ⟨fun g hg => ?_, h.typed.tables, h.typed.elems⟩
    · rw [Store.addGlobal, Array.map_push, Array.toList_push]
      exact prefix_append _ _
    · rcases Array.mem_push.mp hg with hg | rfl
      · exact h.typed.globals g hg
      · exact hvalue
  | onMemory _ hx => exact hevolves (maintains_onMemory _ _ s _ s' h.self_evolves hx).1
  | @onTable α addr op a s' hop hx =>
    cases ht : s.element? addr with
    | none =>
      rw [element?, Array.getElem?_map, Option.map_eq_none_iff] at ht
      rw [onTable_eq, ht] at hx
      cases hx
    | some element =>
      refine hevolves (maintains_onTable ht (fun hstrict t a t' hall hx => ?_) s _ s'
        h.self_evolves hx).1
      exact (hop.mono fun entry he => he hstrict element ht).all hall hx
  | @setGlobal addr g value hg _ hv =>
    have htype : s.globalType? addr = some g.type := by
      rw [globalType?, Array.getElem?_map, hg]
      rfl
    exact hevolves (h.self_evolves.setGlobal htype hv)
  | clearTrace => exact hevolves ⟨s.agrees_trace _, h.typed.globals, h.typed.tables, h.typed.elems⟩
  | place hm ha hs =>
    obtain ⟨hsound, hincludes, hhome⟩ := h.allocate hm ha
    have he := hsound.applySegments hhome hs
    exact ⟨hsound.evolves he, hincludes.trans he.agrees.includes⟩
  | forget hstrict keep => exact h.forget hstrict keep
  | @fail _ _ m bindings limit inst home s1 s2 t hstrict hm ha hs =>
    obtain ⟨hsound, hincludes, -⟩ := h.allocate hm ha
    -- segments that came before the one that does not fit may have written to tables of
    -- others, so only the globals are as they were
    have hagrees := inst.keeps_applySegments.error hs
    obtain ⟨-, hrest⟩ := filled_of_applySegments ha
    rw [hs] at hrest
    obtain ⟨segments, hfilled⟩ := hrest
    obtain ⟨hreleased, hkept⟩ :=
      (hsound.of_globals hstrict hagrees hfilled.globals).forget hstrict fun a => a != home
    rw [← release_eq_forget] at hreleased hkept
    exact ⟨hreleased, (hincludes.trans hagrees.includes).trans hkept⟩

end Store

end Wasm
