import Wasm.Proofs.Machine.Frames
import Wasm.Proofs.Module.Inlining

/-! # Running code with loads and stores in place of accessors

A step of what is inlined is the inlined step (`Machine.step_inlined`). -/

namespace Wasm

open Store

def Instance.inlined (inst : Instance) : Instance := { inst with module := inst.module.inlined }

def Store.inlined (s : Store) : Store :=
  { s with instances := s.instances.map (Option.map Instance.inlined) }

def Frame.inlined (f : Frame) : Frame :=
  { f with inst := f.inst.inlined, func := f.func.inline f.inst.module.accessors }

def Effect.inlined : Effect → Effect
  | next f => next f.inlined
  | call func f => call func f.inlined
  | leave f => leave f.inlined

def Activation.inlined : Activation → Activation
  | frame f => frame f.inlined
  | host type arity room resume => host type arity room resume

def Control.inlined : Control → Control
  | frame f => frame f.inlined
  | host type program => host type program

def Machine.inlined (m : Machine) : Machine :=
  ⟨m.control.inlined, m.callers.map Activation.inlined, m.room⟩

def StepResult.inlined : StepResult → StepResult
  | next s m => next s.inlined m.inlined
  | done s outcome => done s.inlined outcome

theorem Store.instance?_inlined (s : Store) (addr : InstanceAddr) :
    s.inlined.instance? addr = (s.instance? addr).map Instance.inlined := by
  show (s.instances.map (Option.map Instance.inlined))[addr.index]?.join = _
  rw [Array.getElem?_map]
  unfold instance?
  cases s.instances[addr.index]? <;> rfl

/-! ## Changes of a state -/

def Echoes {ε σ α β : Type} (inlined : σ → σ) (g : α → β) (x : EStateM ε σ α) (y : EStateM ε σ β) :
    Prop :=
  ∀ s, y (inlined s) =
    match x s with
    | .ok a s' => .ok (g a) (inlined s')
    | .error t s' => .error t (inlined s')

namespace Echoes

variable {ε σ α β γ δ : Type} {i : σ → σ} {g : α → β} {h : γ → δ}

theorem pure (a : α) : Echoes i g (Pure.pure a : EStateM ε σ α) (Pure.pure (g a)) := fun _ => rfl

theorem throw (t : ε) : Echoes i g (MonadExcept.throw t : EStateM ε σ α) (MonadExcept.throw t) :=
  fun _ => rfl

theorem get : Echoes i i (MonadState.get : EStateM ε σ σ) MonadState.get := fun _ => rfl

theorem bind {x : EStateM ε σ α} {y : EStateM ε σ β} {f : α → EStateM ε σ γ} {k : β → EStateM ε σ δ}
    (hxy : Echoes i g x y) (hfk : ∀ a, Echoes i h (f a) (k (g a))) :
    Echoes i h (x >>= f) (y >>= k) := by
  intro s
  have hs := hxy s
  cases hx : x s with
  | ok a s' =>
    rw [hx] at hs
    rw [bind_of_ok hx, bind_of_ok hs]
    exact hfk a s'
  | error t s' =>
    rw [hx] at hs
    rw [bind_of_error hx, bind_of_error hs]

theorem changing {f : σ → σ} (hf : ∀ s, f (i s) = i (f s)) :
    Echoes i id (modify f : EStateM ε σ PUnit) (modify f) :=
  fun s => congrArg (EStateM.Result.ok PUnit.unit) (hf s)

theorem ite {P : Prop} [Decidable P] {x x' : EStateM ε σ α} {y y' : EStateM ε σ β}
    (hx : Echoes i g x y) (hx' : Echoes i g x' y') :
    Echoes i g (if P then x else x') (if P then y else y') := by
  split
  · exact hx
  · exact hx'

theorem lift (x : Except Trap α) : Echoes Store.inlined id (Frame.lift x) (Frame.lift x) := by
  cases x with
  | ok a => exact .pure a
  | error t => exact .throw t

theorem onMemory (addr : MemoryAddr) (op : MemoryM α) :
    Echoes Store.inlined id (Store.onMemory addr op) (Store.onMemory addr op) := by
  intro s
  rw [onMemory_eq, onMemory_eq]
  dsimp only [Store.inlined]
  cases s.memories[addr.index]? with
  | none => rfl
  | some m =>
    dsimp only
    cases op m <;> rfl

theorem onTable (addr : TableAddr) (op : TableM Ref α) :
    Echoes Store.inlined id (Store.onTable addr op) (Store.onTable addr op) := by
  intro s
  rw [onTable_eq, onTable_eq]
  dsimp only [Store.inlined]
  cases s.tables[addr.index]? with
  | none => rfl
  | some t =>
    dsimp only
    cases op t.table <;> rfl

theorem next {x y : StoreM Frame} (h : Echoes Store.inlined Frame.inlined x y) :
    Echoes Store.inlined Effect.inlined (x >>= fun f => Pure.pure (.next f))
      (y >>= fun f => Pure.pure (.next f)) :=
  h.bind fun _ => .pure _

end Echoes

/-! ## Frames -/

namespace Frame

variable (f : Frame)

theorem echoes_memoryAddr (index : Nat) :
    Echoes Store.inlined id (f.memoryAddr index) (f.inlined.memoryAddr index) := by
  unfold memoryAddr
  rw [show f.inlined.inst.memories = f.inst.memories from rfl]
  cases f.inst.memories[index]? with
  | some addr => exact .pure addr
  | none => exact .throw _

theorem echoes_memory (index : Nat) :
    Echoes Store.inlined id (f.memory index) (f.inlined.memory index) := by
  refine (f.echoes_memoryAddr index).bind fun addr => Echoes.get.bind fun s => ?_
  rw [show s.inlined.memories = s.memories from rfl, id]
  cases s.memories[addr.index]? with
  | some m => exact .pure m
  | none => exact .throw _

theorem echoes_tableAddr (index : Nat) :
    Echoes Store.inlined id (f.tableAddr index) (f.inlined.tableAddr index) := by
  unfold tableAddr
  rw [show f.inlined.inst.tables = f.inst.tables from rfl]
  cases f.inst.tables[index]? with
  | some addr => exact .pure addr
  | none => exact .throw _

theorem echoes_table (index : Nat) :
    Echoes Store.inlined id (f.table index) (f.inlined.table index) := by
  refine (f.echoes_tableAddr index).bind fun addr => Echoes.get.bind fun s => ?_
  rw [show s.inlined.tables = s.tables from rfl, id]
  cases s.tables[addr.index]? with
  | some t => exact .pure t
  | none => exact .throw _

theorem echoes_load (access : MemoryAccess) (memory offset : Nat) :
    Echoes Store.inlined inlined (f.load access memory offset)
      (f.inlined.load access memory offset) :=
  (f.echoes_memory memory).bind fun _ => (Echoes.lift _).bind fun _ => .pure _

theorem echoes_store (access : MemoryAccess) (memory offset : Nat) :
    Echoes Store.inlined inlined (f.store access memory offset)
      (f.inlined.store access memory offset) :=
  (f.echoes_memoryAddr memory).bind fun _ => (Echoes.onMemory _ _).bind fun _ => .pure _

theorem echoes_indirect (type table index : Nat) :
    Echoes Store.inlined id (f.indirect type table index)
      (f.inlined.indirect type table index) := by
  refine (f.echoes_table table).bind fun t => (Echoes.lift _).bind fun entry => ?_
  rcases entry with _ | _ | id
  · exact .throw _
  · exact Echoes.get.bind fun s => .ite (.pure _) (.throw _)
  · exact .throw _

theorem global?_inlined (global : GlobalRef) :
    f.inst.inlined.global? global = f.inst.global? global := by
  cases global <;> rfl

theorem echoes_globalGet (global : GlobalRef) :
    Echoes Store.inlined id (f.globalGet global) (f.inlined.globalGet global) := by
  unfold globalGet
  rw [show f.inlined.inst = f.inst.inlined from rfl, global?_inlined]
  cases f.inst.global? global with
  | none => exact .pure _
  | some addr =>
    refine Echoes.get.bind fun s => ?_
    rw [show s.inlined.globals = s.globals from rfl]
    cases s.globals[addr.index]? with
    | some g | none => exact .pure _

theorem echoes_globalSet (global : GlobalRef) :
    Echoes Store.inlined inlined (f.globalSet global) (f.inlined.globalSet global) := by
  unfold globalSet
  rw [show f.inlined.inst = f.inst.inlined from rfl, global?_inlined]
  cases f.inst.global? global with
  | none => exact .pure _
  | some addr =>
    have hset : Echoes Store.inlined id
      (modify (·.setGlobal addr (pop f.operands).1) : StoreM PUnit)
        (modify (·.setGlobal addr (pop f.operands).1)) := .changing fun _ => rfl
    exact hset.bind fun _ => .pure _

theorem echoes_access {op : BasicOp} {id : Nat}
    (hexec : ∀ f : Frame, op.exec f = f.access id >>= fun f' => Pure.pure (Effect.next f'))
    (hinline : ∀ a : Accessors, op.inline a = ((a.get? id).map AccessorKey.op).getD op) :
    Echoes Store.inlined Effect.inlined (op.exec f)
      ((op.inline f.inst.module.accessors).exec f.inlined) := by
  rw [hexec, hinline, access]
  cases f.inst.module.accessors.get? id with
  | none =>
    show Echoes _ _ _ (op.exec f.inlined)
    rw [hexec]
    exact .throw _
  | some key =>
    obtain ⟨access | access, memory, offset⟩ := key
    · exact (f.echoes_load access memory offset).next
    · exact (f.echoes_store access memory offset).next

end Frame

theorem BasicOp.echoes_exec (f : Frame) (op : BasicOp) :
    Echoes Store.inlined Effect.inlined (op.exec f)
      ((op.inline f.inst.module.accessors).exec f.inlined) := by
  cases op with
  | localTee slot =>
    obtain ⟨inst, func, pc, locals, operands⟩ := f
    cases operands with
    | nil | cons value rest => exact .pure _
  | binary op | unary op => exact (Echoes.lift _).bind fun _ => .pure _
  | call func =>
    show Echoes _ _ (exec f (.call func)) (exec f.inlined (.call func))
    rw [exec, exec, show f.inlined.inst.funcs = f.inst.funcs from rfl]
    cases f.inst.funcs[func]? with
    | some addr => exact .pure _
    | none => exact .throw _
  | callIndirect type table => exact (f.echoes_indirect _ _ _).bind fun _ => .pure _
  | unreachable => exact .throw _
  | globalGet global => exact (f.echoes_globalGet _).bind fun _ => .pure _
  | globalSet global => exact (f.echoes_globalSet _).next
  | load access memory offset => exact (f.echoes_load _ _ _).next
  | store access memory offset => exact (f.echoes_store _ _ _).next
  | loadVia id | storeVia id => exact f.echoes_access (fun _ => rfl) fun _ => rfl
  | memorySize memory => exact (f.echoes_memory _).bind fun _ => .pure _
  | memoryInit data memory =>
    exact .next (Echoes.get.bind fun _ => (f.echoes_memoryAddr _).bind fun _ =>
      (Echoes.onMemory _ _).bind fun _ => .pure _)
  | memoryFill memory | memoryGrow memory =>
    exact .next ((f.echoes_memoryAddr _).bind fun _ => (Echoes.onMemory _ _).bind fun _ => .pure _)
  | memoryCopy dst src =>
    exact .next ((f.echoes_memoryAddr _).bind fun _ => (f.echoes_memoryAddr _).bind fun _ =>
      .ite ((Echoes.onMemory _ _).bind fun _ => .pure _)
        ((f.echoes_memory _).bind fun _ => (Echoes.onMemory _ _).bind fun _ => .pure _))
  | dataDrop data =>
    show Echoes _ _ (exec f (.dataDrop data)) (exec f.inlined (.dataDrop data))
    rw [exec, exec, show f.inlined.inst.data = f.inst.data from rfl]
    cases f.inst.data[data]? with
    | some addr =>
      have hdrop : Echoes Store.inlined id (modify (·.dropData addr) : StoreM PUnit)
          (modify (·.dropData addr)) := .changing fun _ => rfl
      exact hdrop.bind fun _ => .pure _
    | none => exact .pure _
  | tableSize table => exact (f.echoes_table _).bind fun _ => .pure _
  | tableGet table =>
    exact .next ((f.echoes_table _).bind fun _ => (Echoes.lift _).bind fun _ => .pure _)
  | tableSet table | tableGrow table | tableFill table =>
    exact .next ((f.echoes_tableAddr _).bind fun _ => (Echoes.onTable _ _).bind fun _ => .pure _)
  | tableCopy dst src =>
    exact .next ((f.echoes_tableAddr _).bind fun _ => (f.echoes_tableAddr _).bind fun _ =>
      .ite ((Echoes.onTable _ _).bind fun _ => .pure _)
        ((f.echoes_table _).bind fun _ => (Echoes.onTable _ _).bind fun _ => .pure _))
  | tableInit elem table =>
    exact .next (Echoes.get.bind fun _ => (f.echoes_tableAddr _).bind fun _ =>
      (Echoes.onTable _ _).bind fun _ => .pure _)
  | elemDrop elem =>
    show Echoes _ _ (exec f (.elemDrop elem)) (exec f.inlined (.elemDrop elem))
    rw [exec, exec, show f.inlined.inst.elems = f.inst.elems from rfl]
    cases f.inst.elems[elem]? with
    | some addr =>
      have hdrop : Echoes Store.inlined id (modify (·.dropElem addr) : StoreM PUnit)
          (modify (·.dropElem addr)) := .changing fun _ => rfl
      exact hdrop.bind fun _ => .pure _
    | none => exact .pure _
  | unpack carrier =>
    obtain ⟨inst, func, pc, locals, operands⟩ := f
    rcases operands with _ | ⟨value, rest⟩
    · exact .pure _
    · cases value <;> exact .pure _
  | _ => exact .pure _

theorem Op.echoes_exec (f : Frame) (op : Op Nat) : Echoes Store.inlined Effect.inlined (op.exec f)
      ((op.mapBasic (·.inline f.inst.module.accessors)).exec f.inlined) := by
  cases op with
  | basic op => exact op.echoes_exec f
  | _ => exact .pure _

theorem Frame.echoes_step (f : Frame) :
    Echoes Store.inlined Effect.inlined f.step f.inlined.step := by
  unfold step
  have hcode : f.inlined.func.code[f.inlined.pc]? =
      f.func.code[f.pc]?.map (Op.mapBasic (·.inline f.inst.module.accessors)) := Array.getElem?_map
  rw [hcode]
  cases f.func.code[f.pc]? with
  | none => exact .pure _
  | some op => exact op.echoes_exec { f with pc := f.pc + 1 }

/-! ## Machines -/

namespace Machine

theorem unwind_inlined (s : Store) (t : Trap) (callers : List Activation) :
    unwind s.inlined t (callers.map Activation.inlined) = (unwind s t callers).inlined := by
  induction callers with
  | nil => rfl
  | cons caller callers ih =>
    cases caller with
    | frame f => exact ih
    | host type arity room resume => rfl

theorem deliver_inlined (s : Store) (yielded : List Value) (callers : List Activation)
    (room : Nat) :
    deliver s.inlined yielded (callers.map Activation.inlined) room =
      (deliver s yielded callers room).inlined := by
  rcases callers with _ | ⟨f | _, callers⟩ <;> rfl

theorem call_inlined (s : Store) (func : FuncAddr) (args : List Value) (callers : List Activation)
    (room : Nat) :
    call s.inlined func args (callers.map Activation.inlined) room =
      (call s func args callers room).inlined := by
  unfold call
  rw [show s.inlined.funcs = s.funcs from rfl]
  rcases s.funcs[func.index]? with _ | ⟨type, home, index⟩ | ⟨type, body⟩
  · exact unwind_inlined s _ callers
  · dsimp only
    rw [s.instance?_inlined]
    cases s.instance? home with
    | none => exact unwind_inlined s _ callers
    | some inst =>
      cases room with
      | zero => exact unwind_inlined s _ callers
      | succ room =>
        have hfunc : inst.inlined.module.functions[index]? =
            inst.module.functions[index]?.map (·.inline inst.module.accessors) := Array.getElem?_map
        dsimp only [Option.map_some]
        rw [hfunc]
        cases inst.module.functions[index]? with
        | none => exact unwind_inlined s _ callers
        | some f => rfl
  · rfl

theorem callFrom_inlined (s : Store) (f : Frame) (func : FuncAddr) (callers : List Activation)
    (room : Nat) :
    callFrom s.inlined f.inlined func (callers.map Activation.inlined) room =
      (callFrom s f func callers room).inlined := by
  exact call_inlined s func _ (.frame { f with operands := f.operands.drop _ } :: callers) room

theorem callDepth_inlined (s : Store) (func : FuncAddr) :
    s.inlined.callDepth func = s.callDepth func := by
  unfold Store.callDepth
  rw [show s.inlined.funcs = s.funcs from rfl]
  rcases s.funcs[func.index]? with _ | ⟨type, home, index⟩ | ⟨type, body⟩
  · rfl
  · dsimp only
    rw [s.instance?_inlined]
    cases s.instance? home <;> rfl
  · rfl

theorem attempt_inlined {α : Type} {op : StoreM α} (h : Echoes Store.inlined id op op) (s : Store) :
    attempt op s.inlined = (attempt op s).inlined := by
  rw [attempt, attempt, h s]
  cases op s <;> rfl

theorem amend_inlined (s : Store) (c : HostChange) : s.inlined.amend c = (s.amend c).inlined := by
  cases c with
  | writeMemory | growMemory => exact attempt_inlined (.onMemory _ _) s
  | setEntry | growTable => exact attempt_inlined (.onTable _ _) s
  | setGlobal addr value =>
    rw [amend, amend, show s.inlined.globals = s.globals from rfl]
    cases s.globals[addr.index]? with
    | none => rfl
    | some g =>
      dsimp only
      rw [apply_ite Store.inlined]
      rfl

theorem hostStep_inlined (s : Store) (type : FuncType) (program : HostProgram)
    (callers : List Activation) (room : Nat) :
    hostStep s.inlined type program (callers.map Activation.inlined) room =
      (hostStep s type program callers room).inlined := by
  cases program with
  | answer values =>
    rw [hostStep, hostStep]
    by_cases htypes : values.map Value.type? = type.results.map some
    · rw [if_pos htypes, if_pos htypes]
      exact deliver_inlined s _ callers room
    · rw [if_neg htypes, if_neg htypes]
      exact unwind_inlined s _ callers
  | trap t => exact unwind_inlined s t callers
  | report event next | inspect resume => rfl
  | change c next =>
    rw [hostStep, hostStep, amend_inlined]
    rfl
  | invoke func args resume =>
    have htype : s.inlined.funcType? func = s.funcType? func := rfl
    rw [hostStep, hostStep, htype]
    cases s.funcType? func with
    | none => exact unwind_inlined s _ callers
    | some callee =>
      dsimp only
      cases argumentError? callee.params args with
      | some e => rfl
      | none =>
        rw [callDepth_inlined]
        exact call_inlined s func args (.host type _ room resume :: callers) _

theorem step_inlined (s : Store) (m : Machine) : step s.inlined m.inlined = (step s m).inlined := by
  obtain ⟨control, callers, room⟩ := m
  cases control with
  | host type program => exact hostStep_inlined s type program callers room
  | frame f =>
    have hstep := f.echoes_step s
    show step s.inlined ⟨.frame f.inlined, callers.map Activation.inlined, room⟩ = _
    rw [step, step, hstep]
    cases f.step s with
    | error t s' => exact unwind_inlined s' t callers
    | ok effect s' =>
      cases effect with
      | next f' => rfl
      | call func f' => exact callFrom_inlined s' f' func callers room
      | leave f' => exact deliver_inlined s' f'.result callers (room + 1)

theorem run_inlined (fuel : Nat) (s : Store) (m : Machine) :
    run fuel s.inlined m.inlined = ((run fuel s m).1, (run fuel s m).2.inlined) := by
  induction fuel generalizing s m with
  | zero => rfl
  | succ fuel ih =>
    rw [run, run, step_inlined]
    cases step s m with
    | next s' m' => exact ih s' m'
    | done s' outcome => rfl

end Machine

theorem Store.runFunc_inlined (fuel : Nat) (s : Store) (func : FuncAddr) (args : List Value)
    (depth : Nat) :
    s.inlined.runFunc fuel func args depth =
      ((s.runFunc fuel func args depth).1, (s.runFunc fuel func args depth).2.inlined) := by
  have hcall := Machine.call_inlined s func args [] depth
  unfold runFunc
  rw [List.map_nil] at hcall
  rw [hcall]
  cases Machine.call s func args [] depth with
  | done s' outcome => rfl
  | next s' m =>
    dsimp only [StepResult.inlined]
    rw [Machine.run_inlined]
    rcases Machine.run fuel s' m with ⟨_ | _ | _, s''⟩ <;> rfl

theorem Store.invoke_inlined (fuel : Nat) (s : Store) (func : FuncAddr) (args : List Value) :
    s.inlined.invoke fuel func args =
      ((s.invoke fuel func args).1, (s.invoke fuel func args).2.inlined) := by
  unfold invoke
  rw [Machine.callDepth_inlined]
  exact s.runFunc_inlined fuel func args _

end Wasm
