import Wasm.Proofs.Machine.Inlining
import Wasm.Proofs.Store.Instantiation
import Wasm.Session

/-! # Accessors make no difference

A module is instantiated to the same objects with accessors and without. -/

namespace Wasm

/-! ## Instantiation -/

namespace Module

variable (m : Module)

theorem newFuncs_inlined (home : InstanceAddr) : m.inlined.newFuncs home = m.newFuncs home := by
  unfold newFuncs
  rw [show m.inlined.functions.size = m.functions.size from Array.size_map]
  rfl

end Module

namespace Store

variable (s : Store)

theorem resolve_inlined (types : Array FuncType) (bindings : List Binding) (imports : List Import)
    (r : Resolved) :
    s.inlined.resolve types bindings imports r = s.resolve types bindings imports r := by
  induction imports generalizing r with
  | nil => rfl
  | cons i imports ih =>
    rw [resolve, resolve]
    cases Binding.find? bindings i.module i.name with
    | none => rfl
    | some item =>
      dsimp only
      rw [show s.inlined.offers types i.desc item = s.offers types i.desc item from rfl, ih]

theorem addInstance_inlined (m : Module) (r : Resolved) (tables : List TableInst)
    (memories : List Memory) (limit : Nat) :
    s.inlined.addInstance m.inlined r tables memories limit =
      let (inst, home, s') := s.addInstance m r tables memories limit
      (inst.inlined, home, s'.inlined) := by
  have hsize : m.inlined.functions.size = m.functions.size := Array.size_map
  have hhome : s.inlined.instances.size = s.instances.size := Array.size_map
  rw [addInstance_eq, addInstance_eq, hsize, hhome, m.newFuncs_inlined]
  refine Prod.ext rfl (Prod.ext rfl ?_)
  dsimp only [inlined]
  rw [Array.map_push]
  rfl

theorem allocate_inlined (m : Module) (bindings : List Binding) (limit : Nat) :
    s.inlined.allocate m.inlined bindings limit =
      (s.allocate m bindings limit).map fun r => (r.1.inlined, r.2.1, r.2.2.inlined) := by
  unfold allocate
  rw [show m.inlined.spaces = m.spaces from rfl, show m.inlined.imports = m.imports from rfl,
    s.resolve_inlined]
  cases s.resolve m.spaces.types bindings m.imports.toList .empty with
  | error e => rfl
  | ok r =>
    rw [show m.inlined.newTables = m.newTables from rfl,
      show m.inlined.newMemories = m.newMemories from rfl]
    rcases m.newTables with e | tables
    · rfl
    rcases m.newMemories with e | memories
    · rfl
    exact congrArg Except.ok (s.addInstance_inlined m r tables memories limit)

end Store

namespace Instance

variable (inst : Instance)

theorem echoes_applyElement (segment : ElementSegment) (addr : ElemAddr) :
    Echoes Store.inlined id (inst.applyElement segment addr)
      (inst.inlined.applyElement segment addr) := by
  have hdrop : Echoes Store.inlined id (modify (·.dropElem addr) : StoreM PUnit)
      (modify (·.dropElem addr)) := .changing fun _ => rfl
  obtain ⟨type, items, mode⟩ := segment
  cases mode with
  | passive => exact .pure _
  | declarative => exact hdrop
  | active table offset =>
    refine Echoes.get.bind fun s => ?_
    rw [show inst.inlined.tables = inst.tables from rfl]
    cases inst.tables[table]? with
    | none => exact .throw _
    | some tableAddr => exact (Echoes.onTable _ _).bind fun _ => hdrop

theorem echoes_applyData (segment : DataSegment) (addr : DataAddr) :
    Echoes Store.inlined id (inst.applyData segment addr)
      (inst.inlined.applyData segment addr) := by
  have hdrop : Echoes Store.inlined id (modify (·.dropData addr) : StoreM PUnit)
      (modify (·.dropData addr)) := .changing fun _ => rfl
  obtain ⟨bytes, mode⟩ := segment
  cases mode with
  | passive | declarative => exact .pure _
  | active memory offset =>
    dsimp only [applyData]
    rw [show inst.inlined.memories = inst.memories from rfl]
    cases inst.memories[memory]? with
    | none => exact .throw _
    | some memoryAddr =>
      exact Echoes.get.bind fun s => (Echoes.onMemory _ _).bind fun _ => hdrop

theorem echoes_applyAll {α β : Type} {apply apply' : α → β → StoreM Unit}
    (h : ∀ a b, Echoes Store.inlined id (apply a b) (apply' a b)) (pairs : List (α × β)) :
    Echoes Store.inlined id (applyAll apply pairs) (applyAll apply' pairs) := by
  induction pairs with
  | nil => exact .pure _
  | cons pair pairs ih => exact (h pair.1 pair.2).bind fun _ => ih

theorem echoes_applySegments :
    Echoes Store.inlined id inst.applySegments inst.inlined.applySegments :=
  (echoes_applyAll inst.echoes_applyElement _).bind fun _ => echoes_applyAll inst.echoes_applyData _

theorem runStart_inlined (fuel : Nat) (s : Store) : inst.inlined.runStart fuel s.inlined =
      ((inst.runStart fuel s).1, (inst.runStart fuel s).2.inlined) := by
  unfold runStart
  rw [show inst.inlined.module.start = inst.module.start from rfl,
    show inst.inlined.funcs = inst.funcs from rfl]
  cases inst.module.start with
  | none => rfl
  | some start =>
    dsimp only
    cases inst.funcs[start]? with
    | none => rfl
    | some func => exact s.invoke_inlined fuel func []

end Instance

namespace Store

variable (s : Store)

theorem release_inlined (addr : InstanceAddr) :
    s.inlined.release addr = (s.release addr).inlined := by
  unfold release inlined
  rw [Array.map_setIfInBounds]
  rfl

theorem start_inlined (fuel : Nat) (inst : Instance) (addr : InstanceAddr) :
    s.inlined.start fuel inst.inlined addr =
      ((s.start fuel inst addr).1, (s.start fuel inst addr).2.inlined) := by
  unfold start
  rw [inst.echoes_applySegments s]
  cases inst.applySegments s with
  | error t s' => exact Prod.ext rfl (s'.release_inlined addr)
  | ok u s' =>
    dsimp only [id]
    rw [inst.runStart_inlined]
    rcases inst.runStart fuel s' with ⟨_ | _ | _, s''⟩
    · rfl
    · exact Prod.ext rfl (s''.release_inlined addr)
    · exact Prod.ext rfl (s''.release_inlined addr)

theorem instantiate_inlined (fuel : Nat) (m : Module) (bindings : List Binding) (limit : Nat) :
    s.inlined.instantiate fuel m.inlined bindings limit = ((s.instantiate fuel m bindings limit).1,
        (s.instantiate fuel m bindings limit).2.inlined) := by
  unfold instantiate
  rw [s.allocate_inlined]
  cases s.allocate m bindings limit with
  | error e => rfl
  | ok result => exact result.2.2.start_inlined fuel result.1 result.2.1

/-! ## Instances that can be reached -/

theorem reached_inlined (n : Nat) (kept : List InstanceAddr) :
    s.inlined.reached n kept = s.reached n kept := by
  induction n generalizing kept with
  | zero => rfl
  | succ n ih =>
    rw [reached, reached, s.instance?_inlined]
    cases s.instance? ⟨n⟩ with
    | none => exact ih kept
    | some inst => exact ih _

theorem retain_inlined (roots : List InstanceAddr) :
    s.inlined.retain roots = (s.retain roots).inlined := by
  have hsize : s.inlined.instances.size = s.instances.size := Array.size_map
  unfold retain
  rw [hsize, s.reached_inlined]
  have hinst : ∀ kept : List InstanceAddr, (s.instances.map (Option.map Instance.inlined)).mapIdx
          (fun i inst => if ⟨i⟩ ∈ kept then inst else none) =
        (s.instances.mapIdx fun i inst => if ⟨i⟩ ∈ kept then inst else none).map
          (Option.map Instance.inlined) := by
    intro kept
    apply Array.ext
    · rw [Array.size_mapIdx, Array.size_map, Array.size_map, Array.size_mapIdx]
    · intro i hi hi'
      simp only [Array.getElem_mapIdx, Array.getElem_map]
      split <;> rfl
  exact congrArg (fun instances => { s with instances }) (hinst _)

end Store

/-! ## Sessions -/

namespace Session

def inlined (s : Session) : Session :=
  { s with
    store := s.store.inlined
    modules := s.modules.map fun (name, m) => (name, m.inlined) }

theorem settle_inlined (s : Session) : s.inlined.settle = s.settle.inlined :=
  congrArg (fun store => { s.inlined with store }) (s.store.retain_inlined _)

theorem lookup_inlined (name : String) (modules : List (String × Module)) :
    (modules.map fun (name, m) => (name, m.inlined)).lookup name =
      (modules.lookup name).map Module.inlined := by
  induction modules with
  | nil => rfl
  | cons entry modules ih =>
    rw [List.map_cons, List.lookup_cons, List.lookup_cons]
    cases name == entry.1 with
    | true => rfl
    | false => exact ih

theorem forget_inlined (s : Session) (name : String) : forget name s.inlined.modules =
      (forget name s.modules).map fun (name, m) => (name, m.inlined) := List.filter_map

theorem inlined_rename (s : Session) (name : String) (m : Module) :
    inlined { s with modules := rename name m s.modules } =
      { s.inlined with modules := rename name m.inlined s.inlined.modules } :=
  congrArg (fun modules => { s.inlined with modules := (name, m.inlined) :: modules })
    (s.forget_inlined name).symm

variable {α : Type}

theorem echoes_onStore {change change' : Store → α × Store}
    (h : ∀ s, change' s.inlined = ((change s).1, (change s).2.inlined)) :
    Echoes inlined id (onStore change) (onStore change') := by
  intro s
  show EStateM.Result.ok (change' s.store.inlined).1
    { s.inlined with store := (change' s.store.inlined).2 } = _
  rw [h]
  rfl

theorem echoes_trapping {change change' : StoreM α} (h : Echoes Store.inlined id change change') :
    Echoes inlined id (trapping change) (trapping change') := by
  refine (echoes_onStore fun s => ?_).bind fun result => ?_
  · rw [h s]
    cases change s <;> rfl
  · cases result with
    | ok a => exact .pure a
    | error t => exact .throw _

theorem echoes_find (name : String) (names : List (String × α)) :
    Echoes inlined id (find name names) (find name names) := by
  unfold find
  split
  · exact .pure _
  · exact .throw _

theorem echoes_findModule (name : String) (modules : List (String × Module)) :
    Echoes inlined Module.inlined (find name modules)
      (find name (modules.map fun (name, m) => (name, m.inlined))) := by
  unfold find
  rw [lookup_inlined]
  cases modules.lookup name with
  | some m => exact .pure m
  | none => exact .throw _

theorem echoes_bindings (imports : List (String × String × String)) :
    Echoes inlined id (bindings imports) (bindings imports) := by
  induction imports with
  | nil => exact .pure _
  | cons i imports ih =>
    refine Echoes.get.bind fun s => ?_
    rw [show s.inlined.item = s.item from rfl]
    cases s.item i.2.2 with
    | some item => exact ih.bind fun _ => .pure _
    | none => exact .throw _

theorem echoes_instanceAt (addr : InstanceAddr) : Echoes inlined Instance.inlined
      (do match (← get).store.instance? addr with
        | some inst => pure inst
        | none => throw .noHandle : SessionM Instance)
      (do match (← get).store.instance? addr with
        | some inst => pure inst
        | none => throw .noHandle) := by
  refine Echoes.get.bind fun s => ?_
  rw [show s.inlined.store = s.store.inlined from rfl, s.store.instance?_inlined]
  cases s.store.instance? addr with
  | some inst => exact .pure inst
  | none => exact .throw _

theorem echoes_instantiate (fuel : Nat) (name module : String)
    (imports : List (String × String × String)) (limit : Nat) :
    Echoes inlined Instance.inlined (instantiate fuel name module imports limit)
      (instantiate fuel name module imports limit) := by
  refine Echoes.get.bind fun s => (echoes_findModule module s.modules).bind fun m =>
    (echoes_bindings imports).bind fun bindings =>
      (echoes_onStore fun s => s.instantiate_inlined fuel m bindings limit).bind fun result => ?_
  cases result with
  | failed e | outOfFuel => exact .throw _
  | ok addr =>
    have hname : Echoes inlined id
        (modify fun s => settle { s with instances := rename name addr s.instances } :
          SessionM PUnit)
        (modify fun s => settle { s with instances := rename name addr s.instances }) :=
      .changing fun s => settle_inlined { s with instances := rename name addr s.instances }
    exact hname.bind fun _ => echoes_instanceAt addr

theorem echoes_callFunc (fuel : Nat) (func : FuncAddr) (args : List Value) :
    Echoes inlined id (callFunc fuel func args) (callFunc fuel func args) := by
  refine Echoes.get.bind fun s => ?_
  rw [show s.inlined.store.funcType? = s.store.funcType? from rfl]
  cases s.store.funcType? func with
  | none => exact .throw _
  | some type =>
    dsimp only
    cases argumentError? type.params args with
    | some e => exact .throw _
    | none =>
      refine (echoes_onStore fun s => s.invoke_inlined fuel func args).bind fun outcome => ?_
      cases outcome with
      | results values => exact .pure _
      | trap t | outOfFuel => exact .throw _

theorem echoes_call (fuel : Nat) (func : String) (args : List Value) :
    Echoes inlined id (call fuel func args) (call fuel func args) :=
  Echoes.get.bind fun _ => (echoes_find _ _).bind fun _ => echoes_callFunc _ _ _

theorem echoes_instanceOf (name : String) :
    Echoes inlined Instance.inlined (instanceOf name) (instanceOf name) :=
  Echoes.get.bind fun _ => (echoes_find _ _).bind fun addr => echoes_instanceAt addr

theorem echoes_lookUp (inst entry : String) :
    Echoes inlined id (lookUp inst entry) (lookUp inst entry) :=
  (echoes_instanceOf inst).bind fun _ => .pure _

theorem echoes_invoke (fuel : Nat) (inst entry : String) (args : List Value) :
    Echoes inlined id (invoke fuel inst entry args) (invoke fuel inst entry args) := by
  refine (echoes_lookUp inst entry).bind fun item => ?_
  rcases item with _ | _ | _ | _ | _
  · exact .throw _
  · exact echoes_callFunc _ _ _
  · exact .throw _
  · exact .throw _
  · exact .throw _

theorem echoes_takeExport (inst entry name : String) :
    Echoes inlined id (takeExport inst entry name) (takeExport inst entry name) := by
  refine Echoes.get.bind fun s => ?_
  have hfound : s.inlined.exported? inst entry = s.exported? inst entry := by
    unfold exported?
    rw [show s.inlined.instances = s.instances from rfl,
      show s.inlined.store = s.store.inlined from rfl]
    cases s.instances.lookup inst with
    | none => rfl
    | some addr =>
      show (s.store.inlined.instance? addr >>= _) = (s.store.instance? addr >>= _)
      rw [s.store.instance?_inlined]
      cases s.store.instance? addr <;> rfl
  rw [hfound]
  refine Echoes.bind (.changing fun s' => ?_) fun _ => .pure _
  rcases s.exported? inst entry with _ | _ | _ | _ | addr
  · rfl
  · rfl
  · rfl
  · rfl
  · exact settle_inlined { s' with globals := rename name addr s'.globals }

theorem echoes_onMemory (memory : String) (op : MemoryM α) :
    Echoes inlined id (onMemory memory op) (onMemory memory op) :=
  Echoes.get.bind fun _ => (echoes_find _ _).bind fun _ => echoes_trapping (.onMemory _ op)

theorem echoes_onTable (table : String) (op : TableM Ref α) :
    Echoes inlined id (onTable table op) (onTable table op) :=
  Echoes.get.bind fun _ => (echoes_find _ _).bind fun _ => echoes_trapping (.onTable _ op)

theorem echoes_globalOf (global : String) :
    Echoes inlined id (globalOf global) (globalOf global) := by
  refine Echoes.get.bind fun _ => (echoes_find _ _).bind fun addr => Echoes.get.bind fun s => ?_
  rw [show s.inlined.store.globals = s.store.globals from rfl, id]
  cases s.store.globals[addr.index]? with
  | some g => exact .pure g
  | none => exact .throw _

theorem echoes_globalSet (global : String) (value : Value) :
    Echoes inlined id (globalSet global value) (globalSet global value) :=
  Echoes.get.bind fun _ => (echoes_find _ _).bind fun _ => (echoes_globalOf global).bind fun _ =>
    .ite ((echoes_onStore fun _ => rfl).bind fun _ => .pure _) (.pure _)

theorem echoes_drop (name : String) : Echoes inlined id (drop name) (drop name) := by
  refine .changing fun s => ?_
  rw [s.forget_inlined]
  exact settle_inlined
    { s with
      modules := forget name s.modules
      instances := forget name s.instances
      funcs := forget name s.funcs
      memories := forget name s.memories
      tables := forget name s.tables
      globals := forget name s.globals }

end Session

/-- What a host asks for once modules are there. -/
inductive Request where
  | instantiate (name module : String) (imports : List (String × String × String)) (limit : Nat)
  | takeExport (inst entry name : String)
  | invoke (inst entry : String) (args : List Value)
  | call (func : String) (args : List Value)
  | onMemory (memory : String) (op : MemoryM (List Value))
  | onTable (table : String) (op : TableM Ref (List Value))
  | globalSet (global : String) (value : Value)
  | drop (name : String)

/-- What a host is told. -/
inductive Answer where
  | values (values : List Value)
  | item (found : Option Item)
  | allowed (flag : Bool)
  | done

namespace Session

def answer (fuel : Nat) : Request → SessionM Answer
  | .instantiate name module imports limit => do
    let _ ← instantiate fuel name module imports limit
    return .done
  | .takeExport inst entry name => return .item (← takeExport inst entry name)
  | .invoke inst entry args => return .values (← invoke fuel inst entry args)
  | .call func args => return .values (← call fuel func args)
  | .onMemory memory op => return .values (← onMemory memory op)
  | .onTable table op => return .values (← onTable table op)
  | .globalSet global value => return .allowed (← globalSet global value)
  | .drop name => do
    drop name
    return .done

/-- The answers to requests in turn, and the session after them. -/
def serve (fuel : Nat) : List Request → Session → List (Except SessionError Answer) × Session
  | [], s => ([], s)
  | request :: requests, s =>
    match answer fuel request s with
    | .ok a s =>
      let (answers, s) := serve fuel requests s
      (.ok a :: answers, s)
    | .error e s =>
      let (answers, s) := serve fuel requests s
      (.error e :: answers, s)

theorem echoes_answer (fuel : Nat) (request : Request) :
    Echoes inlined id (answer fuel request) (answer fuel request) := by
  cases request with
  | instantiate name module imports limit =>
    exact (echoes_instantiate _ _ _ _ _).bind fun _ => .pure _
  | takeExport inst entry name => exact (echoes_takeExport _ _ _).bind fun _ => .pure _
  | invoke inst entry args => exact (echoes_invoke _ _ _ _).bind fun _ => .pure _
  | call func args => exact (echoes_call _ _ _).bind fun _ => .pure _
  | onMemory memory op => exact (echoes_onMemory _ _).bind fun _ => .pure _
  | onTable table op => exact (echoes_onTable _ _).bind fun _ => .pure _
  | globalSet global value => exact (echoes_globalSet _ _).bind fun _ => .pure _
  | drop name => exact (echoes_drop _).bind fun _ => .pure _

theorem serve_inlined (fuel : Nat) (requests : List Request) (s : Session) :
    serve fuel requests s.inlined =
      ((serve fuel requests s).1, (serve fuel requests s).2.inlined) := by
  induction requests generalizing s with
  | nil => rfl
  | cons request requests ih =>
    rw [serve, serve, echoes_answer fuel request s]
    cases answer fuel request s with
    | ok a s' =>
      dsimp only [id]
      rw [ih]
    | error e s' =>
      dsimp only
      rw [ih]

end Session

/-- **Accessors make no difference**: a binary compiles with them exactly when it does without, and
    a host gets the same answers from both modules. -/
theorem Module.compile_transparent (maxPages : Nat) (binary : ByteArray) :
    match compile ⟨maxPages, true⟩ binary, compile ⟨maxPages, false⟩ binary with
    | .ok m, .ok m0 =>
      m.Routes m0 ∧ ∀ (σ : Session) (name : String) (fuel : Nat) (requests : List Request),
        let r := Session.serve fuel requests { σ with modules := Session.rename name m σ.modules }
        let r0 := Session.serve fuel requests { σ with modules := Session.rename name m0 σ.modules }
        r.1 = r0.1 ∧ r.2.store.memories = r0.2.store.memories ∧
          r.2.store.tables = r0.2.store.tables ∧ r.2.store.globals = r0.2.store.globals
    | .error e, .error e0 => e = e0
    | _, _ => False := by
  rcases compile_inlines ⟨maxPages, true⟩ rfl binary with
    ⟨m, hm, hm0, hrouted⟩ | ⟨e, he, he0⟩
  · rw [hm, hm0]
    refine ⟨routes_inlined hrouted, fun σ name fuel requests => ?_⟩
    intro r r0
    -- Putting loads and stores in place a second time changes nothing.
    have hsame : Session.inlined { σ with modules := Session.rename name m σ.modules } =
        Session.inlined { σ with modules := Session.rename name m.inlined σ.modules } := by
      rw [σ.inlined_rename, σ.inlined_rename, inlined_idem]
    have hserve : (r.1, r.2.inlined) = (r0.1, r0.2.inlined) := by
      rw [← Session.serve_inlined, ← Session.serve_inlined, hsame]
    obtain ⟨hanswers, hend⟩ := Prod.mk.inj hserve
    exact ⟨hanswers, congrArg (·.store.memories) hend, congrArg (·.store.tables) hend,
      congrArg (·.store.globals) hend⟩
  · rw [he, he0]

end Wasm
