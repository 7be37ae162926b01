import Wasm.Machine.Run
import Wasm.Proofs.Sequencing

/-! # What an operation of a frame depends on and changes

It works on the top of the operands (`Frame.Framed`) and adds no objects (`Store.Agrees`). -/

namespace Wasm

/-! ## The objects of the store -/

/-- Two stores have the same objects, of the same types. -/
structure Store.Agrees (s s' : Store) : Prop where
  funcs : s'.funcs = s.funcs
  instances : s'.instances = s.instances
  tables : s'.tables.map TableInst.element = s.tables.map TableInst.element
  memories : s'.memories.size = s.memories.size
  globals : s'.globals.map GlobalInst.type = s.globals.map GlobalInst.type
  elems : s'.elems.size = s.elems.size
  data : s'.data.size = s.data.size

namespace Store.Agrees

variable {s s' s'' : Store}

theorem refl (s : Store) : s.Agrees s := ⟨rfl, rfl, rfl, rfl, rfl, rfl, rfl⟩

theorem trans (h : s.Agrees s') (h' : s'.Agrees s'') : s.Agrees s'' where
  funcs := h'.funcs.trans h.funcs
  instances := h'.instances.trans h.instances
  tables := h'.tables.trans h.tables
  memories := h'.memories.trans h.memories
  globals := h'.globals.trans h.globals
  elems := h'.elems.trans h.elems
  data := h'.data.trans h.data

theorem funcType? (h : s.Agrees s') (func : FuncAddr) : s'.funcType? func = s.funcType? func := by
  unfold Store.funcType?
  rw [h.funcs]

theorem instance? (h : s.Agrees s') (addr : InstanceAddr) :
    s'.instance? addr = s.instance? addr := by
  unfold Store.instance?
  rw [h.instances]

end Store.Agrees

instance : Std.Refl Store.Agrees := ⟨.refl⟩

instance : Trans Store.Agrees Store.Agrees Store.Agrees := ⟨.trans⟩

theorem Keeps.lift {α : Type} (x : Except Trap α) : Keeps Store.Agrees (Frame.lift x) := by
  cases x with
  | ok a => exact .pure a
  | error t => exact .throw t

namespace Store

theorem agrees_setGlobal (s : Store) (addr : GlobalAddr) (value : Value) :
    s.Agrees (s.setGlobal addr value) :=
  { Agrees.refl s with
    globals := by
      apply Array.ext
      · simp [setGlobal]
      · intro i h h'
        simp only [setGlobal, Array.getElem_map, Array.getElem_modify]
        split <;> rfl }

theorem agrees_dropElem (s : Store) (addr : ElemAddr) : s.Agrees (s.dropElem addr) :=
  { Agrees.refl s with elems := by simp [dropElem] }

theorem agrees_dropData (s : Store) (addr : DataAddr) : s.Agrees (s.dropData addr) :=
  { Agrees.refl s with data := by simp [dropData] }

theorem agrees_trace (s : Store) (trace : Array HostEvent) : s.Agrees { s with trace } :=
  ⟨rfl, rfl, rfl, rfl, rfl, rfl, rfl⟩

theorem onMemory_eq {α : Type} (addr : MemoryAddr) (op : MemoryM α) (s : Store) :
    onMemory addr op s =
      match s.memories[addr.index]? with
      | none => .error .outOfBounds s
      | some m =>
        match op m with
        | .ok a m' => .ok a { s with memories := s.memories.setIfInBounds addr.index m' }
        | .error t m' =>
          .error t { s with memories := s.memories.setIfInBounds addr.index m' } := by
  unfold onMemory
  by_cases h : addr.index < s.memories.size
  · rw [dif_pos h, Array.getElem?_eq_getElem h]
    cases hop : op s.memories[addr.index] <;>
      simp only [Array.swapAt_def, Array.setIfInBounds, Array.size_set, h, dite_true, Array.set_set,
        hop]
  · rw [dif_neg h, Array.getElem?_eq_none (by omega)]

theorem onTable_eq {α : Type} (addr : TableAddr) (op : TableM Ref α) (s : Store) :
    onTable addr op s =
      match s.tables[addr.index]? with
      | none => .error .tableOutOfBounds s
      | some t =>
        match op t.table with
        | .ok a table =>
          .ok a { s with tables := s.tables.setIfInBounds addr.index { t with table } }
        | .error trap table =>
          .error trap { s with tables := s.tables.setIfInBounds addr.index { t with table } } := by
  unfold onTable
  by_cases h : addr.index < s.tables.size
  · rw [dif_pos h, Array.getElem?_eq_getElem h]
    cases hop : op s.tables[addr.index].table <;>
      simp only [Array.swapAt_def, Array.setIfInBounds, Array.size_set, h, dite_true, Array.set_set,
        hop]
  · rw [dif_neg h, Array.getElem?_eq_none (by omega)]

theorem keeps_onMemory {α : Type} (addr : MemoryAddr) (op : MemoryM α) :
    Keeps Store.Agrees (onMemory addr op) := by
  intro s
  have hm : ∀ m, s.Agrees { s with memories := s.memories.setIfInBounds addr.index m } :=
    fun m => { Agrees.refl s with memories := Array.size_setIfInBounds }
  rw [onMemory_eq]
  cases s.memories[addr.index]? with
  | none => exact .refl s
  | some m =>
    cases hop : op m with
    | ok a m' | error t m' => simp only [hop]; exact hm m'

theorem agrees_setTable {s : Store} {addr : TableAddr} {t : TableInst}
    (h : s.tables[addr.index]? = some t) (table : Table Ref) :
    s.Agrees { s with tables := s.tables.setIfInBounds addr.index { t with table } } := by
  obtain ⟨hlt, rfl⟩ := Array.getElem?_eq_some_iff.mp h
  refine { Agrees.refl s with tables := ?_ }
  apply Array.ext
  · simp
  · intro i h h'
    rw [Array.getElem_map, Array.getElem_map, Array.getElem_setIfInBounds (by simpa using h')]
    split
    · next heq => subst heq; rfl
    · rfl

theorem keeps_onTable {α : Type} (addr : TableAddr) (op : TableM Ref α) :
    Keeps Store.Agrees (onTable addr op) := by
  intro s
  rw [onTable_eq]
  cases hs : s.tables[addr.index]? with
  | none => exact .refl s
  | some t =>
    cases hop : op t.table with
    | ok a table | error trap table => simp only [hop]; exact agrees_setTable hs table

end Store

def StepResult.store : StepResult → Store
  | next s _ | done s _ => s

def StepResult.machine? : StepResult → Option Machine
  | next _ mc => some mc
  | done _ _ => none

/-- Nothing runs, or a host function does. -/
def Outside : Option Machine → Prop
  | some ⟨.frame _, _, _⟩ => False
  | _ => True

namespace Machine

theorem store_unwind (s : Store) (t : Trap) (callers : List Activation) :
    (unwind s t callers).store = s := by
  induction callers with
  | nil => rfl
  | cons caller callers ih =>
    cases caller with
    | frame f => exact ih
    | host type arity room resume => rfl

theorem store_deliver (s : Store) (yielded : List Value) (callers : List Activation) (room : Nat) :
    (deliver s yielded callers room).store = s := by
  unfold deliver
  split <;> rfl

theorem store_call (s : Store) (func : FuncAddr) (args : List Value) (callers : List Activation)
    (room : Nat) : (call s func args callers room).store = s := by
  unfold call
  repeat' split
  all_goals first | rfl | exact store_unwind _ _ _

end Machine

/-! ## Operands below -/

def Ensures {α : Type} (P : α → Prop) (x : StoreM α) : Prop :=
  ∀ s a s', x s = .ok a s' → P a

namespace Ensures

variable {α β : Type}

theorem pure {P : α → Prop} {a : α} (h : P a) : Ensures P (pure a : StoreM α) := by
  rintro s _ _ ⟨⟩
  exact h

theorem bind {x : StoreM α} {f : α → StoreM β} {P : β → Prop} (h : ∀ a, Ensures P (f a)) :
    Ensures P (x >>= f) := by
  intro s b s' hb
  obtain ⟨a, s1, -, ha⟩ := bind_eq_ok.mp hb
  exact h a s1 b s' ha

theorem ite {c : Prop} [Decidable c] {x y : StoreM α} {P : α → Prop} (h : Ensures P x)
    (h' : Ensures P y) : Ensures P (if c then x else y) := by
  split
  · exact h
  · exact h'

end Ensures

namespace Frame

theorem exists_two {l : List Value} (h : 2 ≤ l.length) : ∃ u v rest, l = u :: v :: rest :=
  match l, h with
  | u :: v :: rest, _ => ⟨u, v, rest, rfl⟩

theorem exists_three {l : List Value} (h : 3 ≤ l.length) : ∃ u v w rest, l = u :: v :: w :: rest :=
  match l, h with
  | u :: v :: w :: rest, _ => ⟨u, v, w, rest, rfl⟩

def Lifts (f : Frame) (below : List Value) (count : Nat) (x y : StoreM Frame) : Prop :=
  ∀ s, match x s with
    | .ok g s' => g.operands.length = count ∧ y s = .ok (f.withOperands (g.operands ++ below)) s'
    | .error t s' => y s = .error t s'

namespace Lifts

variable {f : Frame} {below : List Value} {count : Nat}

theorem pure {g : Frame} (h : g.operands.length = count) :
    f.Lifts below count (pure g) (pure (f.withOperands (g.operands ++ below))) :=
  fun _ => ⟨h, rfl⟩

theorem bind {α : Type} {z : StoreM α} {x y : α → StoreM Frame}
    (h : ∀ a, f.Lifts below count (x a) (y a)) : f.Lifts below count (z >>= x) (z >>= y) := by
  intro s
  cases hs : z s with
  | ok a s1 =>
    rw [bind_of_ok hs, bind_of_ok hs]
    exact h a s1
  | error t s1 => rw [bind_of_error hs, bind_of_error hs]

theorem ite {c : Prop} [Decidable c] {x x' y y' : StoreM Frame} (h : f.Lifts below count x y)
    (h' : f.Lifts below count x' y') :
    f.Lifts below count (if c then x else x') (if c then y else y') := by
  split
  · exact h
  · exact h'

end Lifts

def Framed (n k : Nat) (x : Frame → StoreM Frame) : Prop :=
  ∀ (f : Frame) (ops below : List Value) (count : Nat), f.operands = ops ++ below →
    ops.length = count + n → f.Lifts below (count + k) (x ⟨f.inst, default, 0, #[], ops⟩) (x f)

namespace Framed

variable {k : Nat} {x : Frame → StoreM Frame}

theorem one (h : ∀ (f : Frame) (u : Value) (rest below : List Value),
    f.Lifts below (rest.length + k) (x ⟨f.inst, default, 0, #[], u :: rest⟩)
      (x (f.withOperands (u :: (rest ++ below))))) : Framed 1 k x := by
  rintro ⟨inst, func, pc, locals, _⟩ (_ | ⟨u, rest⟩) below count rfl hlen <;> cases hlen
  exact h ⟨inst, func, pc, locals, u :: rest ++ below⟩ u rest below

theorem two (h : ∀ (f : Frame) (u v : Value) (rest below : List Value),
    f.Lifts below (rest.length + k) (x ⟨f.inst, default, 0, #[], u :: v :: rest⟩)
      (x (f.withOperands (u :: v :: (rest ++ below))))) : Framed 2 k x := by
  rintro ⟨inst, func, pc, locals, _⟩ (_ | ⟨u, _ | ⟨v, rest⟩⟩) below count rfl hlen <;> cases hlen
  exact h ⟨inst, func, pc, locals, u :: v :: rest ++ below⟩ u v rest below

theorem three (h : ∀ (f : Frame) (u v w : Value) (rest below : List Value),
    f.Lifts below (rest.length + k) (x ⟨f.inst, default, 0, #[], u :: v :: w :: rest⟩)
      (x (f.withOperands (u :: v :: w :: (rest ++ below))))) : Framed 3 k x := by
  rintro ⟨inst, func, pc, locals, _⟩ (_ | ⟨u, _ | ⟨v, _ | ⟨w, rest⟩⟩⟩) below count rfl hlen <;>
    cases hlen
  exact h ⟨inst, func, pc, locals, u :: v :: w :: rest ++ below⟩ u v w rest below

end Framed

theorem framed_load (access : MemoryAccess) (memory offset : Nat) :
    Framed 1 1 (·.load access memory offset) :=
  .one fun _ _ _ _ => .bind fun _ => .bind fun _ => .pure rfl

theorem framed_store (access : MemoryAccess) (memory offset : Nat) :
    Framed 2 0 (·.store access memory offset) :=
  .two fun _ _ _ _ _ => .bind fun _ => .bind fun _ => .pure rfl

theorem framed_memoryGrow (memory : Nat) : Framed 1 1 (·.memoryGrow memory) :=
  .one fun _ _ _ _ => .bind fun _ => .bind fun _ => .pure rfl

theorem framed_memoryInit (data memory : Nat) : Framed 3 0 (·.memoryInit data memory) :=
  .three fun _ _ _ _ _ _ => .bind fun _ => .bind fun _ => .bind fun _ => .pure rfl

theorem framed_memoryCopy (dst src : Nat) : Framed 3 0 (·.memoryCopy dst src) :=
  .three fun _ _ _ _ _ _ => .bind fun _ => .bind fun _ => .ite (.bind fun _ => .pure rfl)
    (.bind fun _ => .bind fun _ => .pure rfl)

theorem framed_memoryFill (memory : Nat) : Framed 3 0 (·.memoryFill memory) :=
  .three fun _ _ _ _ _ _ => .bind fun _ => .bind fun _ => .pure rfl

theorem framed_tableGet (table : Nat) : Framed 1 1 (·.tableGet table) :=
  .one fun _ _ _ _ => .bind fun _ => .bind fun _ => .pure rfl

theorem framed_tableSet (table : Nat) : Framed 2 0 (·.tableSet table) :=
  .two fun _ _ _ _ _ => .bind fun _ => .bind fun _ => .pure rfl

theorem framed_tableGrow (table : Nat) : Framed 2 1 (·.tableGrow table) :=
  .two fun _ _ _ _ _ => .bind fun _ => .bind fun _ => .pure rfl

theorem framed_tableFill (table : Nat) : Framed 3 0 (·.tableFill table) :=
  .three fun _ _ _ _ _ _ => .bind fun _ => .bind fun _ => .pure rfl

theorem framed_tableCopy (dst src : Nat) : Framed 3 0 (·.tableCopy dst src) :=
  .three fun _ _ _ _ _ _ => .bind fun _ => .bind fun _ => .ite (.bind fun _ => .pure rfl)
    (.bind fun _ => .bind fun _ => .pure rfl)

theorem framed_tableInit (elem table : Nat) : Framed 3 0 (·.tableInit elem table) :=
  .three fun _ _ _ _ _ _ => .bind fun _ => .bind fun _ => .bind fun _ => .pure rfl

theorem framed_globalSet (global : GlobalRef) : Framed 1 0 (·.globalSet global) := by
  refine .one fun f u rest below => ?_
  dsimp only [globalSet, withOperands]
  cases f.inst.global? global with
  | some addr => exact .bind fun _ => .pure rfl
  | none => exact .pure rfl

end Frame

/-! ## Going on -/

/-- A frame of the same function as another. -/
structure Frame.Continues (f f' : Frame) : Prop where
  inst : f'.inst = f.inst
  func : f'.func = f.func
  size : f'.locals.size = f.locals.size

def Effect.frame : Effect → Frame
  | .next f | .call _ f | .leave f => f

namespace Frame

theorem Continues.withOperands (f : Frame) (vs : List Value) :
    f.Continues (f.withOperands vs) := ⟨rfl, rfl, rfl⟩

theorem Continues.write (f : Frame) (slot : Nat) (value : Value) (operands : List Value) :
    f.Continues { f with locals := f.locals.setIfInBounds slot value, operands } :=
  ⟨rfl, rfl, Array.size_setIfInBounds⟩

end Frame

end Wasm
