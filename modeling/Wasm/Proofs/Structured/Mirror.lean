import Wasm.Proofs.Machine.Frames
import Wasm.Proofs.Structured.Semantics
import Wasm.Proofs.Structured.Transfer

/-! # Frames that mirror structured states

An instruction without control does the same to both (`perform_acts`). -/

namespace Wasm

open List Operand LocalSlot
open Assembly (place)

variable {f : Frame} {site : Site} {values slots : Array Value} {st : State} {ops : List Operand}
  {i : Instr}

variable {op : BasicOp} {entry : LocalSlot} {count : Nat}

theorem BasicOp.StandsFor.exec_eq {accessors : Accessors} {op' : BasicOp}
    (h : StandsFor accessors op' op)
    (hk : accessors.keys.toList <+: f.inst.module.accessors.keys.toList) :
    op'.exec f = op.exec f := by
  cases h with
  | self => rfl
  | load h | store h => rw [exec, exec, Frame.access, Accessors.get?_mono hk h]

/-! ## Frames and states -/

/-- A function of an instance, with its context. -/
structure Site extends Spot where
  ctx : BodyContext
  spaces : ctx.spaces = inst.module.spaces
  keys : fin.accessors.keys.toList <+: inst.module.accessors.keys.toList
  locals : ctx.locals = layout types
  width_le : width types ≤ fin.nextSlot

namespace Site

/-- The slots of a frame hold the values of locals. -/
structure Stores (site : Site) (values slots : Array Value) : Prop where
  count : values.size = site.types.length
  size : slots.size = site.fin.nextSlot
  same : ∀ (i : Nat) (entry : LocalSlot), site.ctx.locals[i]? = some entry →
    slots[entry.slot]? = values[i]?

theorem slot_lt (site : Site) {i : Nat}
    (h : site.ctx.locals[i]? = some entry) : entry.slot < width site.types := by
  rw [site.locals] at h
  exact slot_lt_width h

theorem Stores.of_same {slots' : Array Value} (h : site.Stores values slots)
    (hs : site.Same slots slots') : site.Stores values slots' where
  count := h.count
  size := hs.size.trans h.size
  same i entry hi := (hs.same _ (site.slot_lt hi)).trans (h.same i entry hi)

theorem Stores.set_local (h : site.Stores values slots) {index : Nat}
    (he : site.ctx.locals[index]? = some entry) (v : Value) :
    site.Stores (values.setIfInBounds index v) (slots.setIfInBounds entry.slot v) where
  count := by rw [Array.size_setIfInBounds, h.count]
  size := by rw [Array.size_setIfInBounds, h.size]
  same i other hi := by
    have hslot : entry.slot < slots.size := by
      rw [h.size]
      exact Nat.lt_of_lt_of_le (site.slot_lt he) site.width_le
    have hindex : index < values.size := by
      obtain ⟨hlt, -⟩ := Array.getElem?_eq_some_iff.mp he
      rwa [site.locals, size_layout, ← h.count] at hlt
    by_cases heq : index = i
    · subst heq
      cases he.symm.trans hi
      rw [Array.getElem?_setIfInBounds_self_of_lt hslot,
        Array.getElem?_setIfInBounds_self_of_lt hindex]
    · have hne : entry.slot ≠ other.slot := by
        intro hs
        rw [site.locals] at he hi
        exact heq (slot_injective he hi hs)
      rw [Array.getElem?_setIfInBounds_ne hne, Array.getElem?_setIfInBounds_ne heq,
        h.same i other hi]

end Site

namespace Structured

/-- A frame holds the locals and operands of a state. -/
inductive Mirrors (site : Site) (below : List Value) (pc : Nat) : State → Frame → Prop
  | intro {values slots : Array Value} {ops : List Value} (h : site.Stores values slots) :
      Mirrors site below pc ⟨site.inst, values, ops⟩ ⟨site.inst, site.func, pc, slots, ops ++ below⟩

def Acts (R : State → Frame → Prop) (y : StoreM State) (x : StoreM Effect) : Prop :=
  ∀ s, match y s with
    | .ok st s' => ∃ f, x s = .ok (.next f) s' ∧ R st f
    | .error t s' => x s = .error t s'

namespace Acts

variable {R : State → Frame → Prop}

theorem pure (h : R st f) : Acts R (pure st) (pure (.next f)) :=
  fun _ => ⟨f, rfl, h⟩

theorem bind {α : Type} {P : α → Prop} {z : StoreM α} {g : α → StoreM State}
    {h : α → StoreM Effect} (hz : Ensures P z) (hgh : ∀ a, P a → Acts R (g a) (h a)) :
    Acts R (z >>= g) (z >>= h) := by
  intro s
  cases hs : z s with
  | ok a s1 =>
    rw [bind_of_ok hs, bind_of_ok hs]
    exact hgh a (hz s a s1 hs) s1
  | error t s1 =>
    rw [bind_of_error hs, bind_of_error hs]

end Acts

/-! ## Instructions without control -/

def MirrorsWith (site : Site) (below : List Value) (pc count : Nat) (st : State) (f : Frame) :
    Prop :=
  Mirrors site below pc st f ∧ st.operands.length = count

variable {below : List Value} {pc : Nat}

theorem acts_onFrame {n k : Nat} {x : Frame → StoreM Frame} (hx : Frame.Framed n k x)
    (h : MirrorsWith site below pc (count + n) st f) :
    Acts (MirrorsWith site below pc (count + k)) (st.onFrame x)
      (x f >>= fun g => pure (.next g)) := by
  obtain ⟨@⟨values, slots, ops, hs⟩, hlen⟩ := h
  intro s
  have hlift := hx (site.frame pc slots (ops ++ below)) ops below count rfl hlen s
  show match (x ⟨site.inst, default, 0, #[], ops⟩ >>= _ : StoreM State) s with
    | .ok st s' => _ | .error t s' => _
  cases hg : x ⟨site.inst, default, 0, #[], ops⟩ s with
  | ok g s1 =>
    rw [hg] at hlift
    rw [bind_of_ok hg, bind_of_ok hlift.2]
    exact ⟨_, rfl, .intro hs, hlift.1⟩
  | error t s1 =>
    rw [hg] at hlift
    rw [bind_of_error hg, bind_of_error hlift]

theorem acts_push (h : MirrorsWith site below pc count st f) (v : Value) :
    Acts (MirrorsWith site below pc (count + 1)) (pure (st.holding (v :: st.operands)))
      (pure (.next (f.withOperands (v :: f.operands)))) := by
  obtain ⟨⟨hs⟩, hlen⟩ := h
  exact .pure ⟨.intro hs, by rw [State.holding, length_cons, hlen]⟩

theorem acts_read {α : Type} (h : MirrorsWith site below pc count st f)
    (z : StoreM α) (v : α → Value) :
    Acts (MirrorsWith site below pc (count + 1))
      (z >>= fun a => pure (st.holding (v a :: st.operands)))
      (z >>= fun a => pure (.next (f.withOperands (v a :: f.operands)))) :=
  .bind (P := fun _ => True) (fun _ _ _ _ => trivial) fun a _ => acts_push h (v a)

theorem localAt_eq_ok {ctx : BodyContext} {index : Nat} (h : ctx.localAt index = .ok entry) :
    ctx.locals[index]? = some entry ∧ ctx.slotAt index = entry.slot := by
  have hget := IndexSpaces.lookup_eq_ok.mp h
  rw [BodyContext.slotAt, hget]
  exact ⟨rfl, rfl⟩

theorem length_of_take? {ts : List ValueType} {rest : List Operand} (hk : ∀ o ∈ ops, o ≠ .unknown)
    (h : take? false ts ops = some rest) : ops.length = ts.length + rest.length := by
  rw [eq_append_of_take? hk h, length_append, length_known]

theorem acts_fixed {ps rs : List ValueType} (hop : i.op? site.ctx = some op)
    (hi : Instr.Fixed site.ctx i ps rs) (h : MirrorsWith site below pc (count + ps.length) st f) :
    Acts (MirrorsWith site below pc (count + rs.length)) (perform st i) (op.exec f) := by
  have hmirrors := h
  obtain ⟨@⟨values, slots, ops, hs⟩, hlen⟩ := h
  cases hi with
  | nop | call _ | callIndirect _ _ => cases hop
  | selectTyped =>
    cases hop
    obtain ⟨c, v, u, rest, rfl⟩ := Frame.exists_three
      (Nat.le_trans (Nat.le_add_left 3 count) (Nat.le_of_eq hlen.symm))
    exact .pure ⟨.intro hs, Nat.succ.inj (Nat.succ.inj hlen)⟩
  | localGet hl =>
    cases hop
    obtain ⟨he, hslot⟩ := localAt_eq_ok hl
    have hget : slots[site.ctx.slotAt _]? = values[_]? := hslot ▸ hs.same _ _ he
    refine .pure ⟨?_, congrArg Nat.succ hlen⟩
    rw [hget]
    exact .intro hs
  | localSet hl =>
    cases hop
    obtain ⟨he, hslot⟩ := localAt_eq_ok hl
    obtain ⟨v, rest, rfl⟩ := exists_cons_of_length_eq_add_one hlen
    refine .pure ⟨?_, Nat.succ.inj hlen⟩
    rw [hslot]
    exact .intro (hs.set_local he v)
  | localTee hl =>
    cases hop
    obtain ⟨he, hslot⟩ := localAt_eq_ok hl
    obtain ⟨v, rest, rfl⟩ := exists_cons_of_length_eq_add_one hlen
    refine .pure ⟨?_, hlen⟩
    rw [hslot]
    exact .intro (hs.set_local he v)
  | globalGet _ =>
    cases hop
    rw [site.spaces]
    exact acts_read hmirrors _ id
  | globalSet _ _ =>
    cases hop
    rw [site.spaces]
    exact acts_onFrame (Frame.framed_globalSet _) hmirrors
  | tableGet _ => cases hop; exact acts_onFrame (Frame.framed_tableGet _) hmirrors
  | tableSet _ => cases hop; exact acts_onFrame (Frame.framed_tableSet _) hmirrors
  | load _ _ => cases hop; exact acts_onFrame (Frame.framed_load _ _ _) hmirrors
  | store _ _ => cases hop; exact acts_onFrame (Frame.framed_store _ _ _) hmirrors
  | memorySize _ =>
    cases hop
    exact acts_read hmirrors _ fun m : Memory => .i32 (BitVec.ofNat 32 m.pageCount)
  | memoryGrow _ => cases hop; exact acts_onFrame (Frame.framed_memoryGrow _) hmirrors
  | i32Const | i64Const | f32Const | f64Const | refNull => cases hop; exact acts_push hmirrors _
  | unary =>
    cases hop
    obtain ⟨v, rest, rfl⟩ := exists_cons_of_length_eq_add_one hlen
    have hrest : MirrorsWith site below pc count ⟨site.inst, values, rest⟩ _ :=
      ⟨.intro hs, Nat.succ.inj hlen⟩
    exact acts_read hrest _ id
  | binary =>
    cases hop
    obtain ⟨v, u, rest, rfl⟩ := Frame.exists_two
      (Nat.le_trans (Nat.le_add_left 2 count) (Nat.le_of_eq hlen.symm))
    have hrest : MirrorsWith site below pc count ⟨site.inst, values, rest⟩ _ :=
      ⟨.intro hs, Nat.succ.inj (Nat.succ.inj hlen)⟩
    exact acts_read hrest _ id
  | refFunc _ =>
    cases hop
    exact acts_push hmirrors _
  | memoryInit _ _ => cases hop; exact acts_onFrame (Frame.framed_memoryInit _ _) hmirrors
  | @dataDrop index =>
    cases hop
    rw [perform, BasicOp.exec]
    cases site.inst.data[index]? with
    | none => exact .pure ⟨.intro hs, hlen⟩
    | some addr =>
      exact .bind (P := fun _ => True) (fun _ _ _ _ => trivial) fun _ _ => .pure ⟨.intro hs, hlen⟩
  | memoryCopy _ _ => cases hop; exact acts_onFrame (Frame.framed_memoryCopy _ _) hmirrors
  | memoryFill _ => cases hop; exact acts_onFrame (Frame.framed_memoryFill _) hmirrors
  | tableInit _ _ => cases hop; exact acts_onFrame (Frame.framed_tableInit _ _) hmirrors
  | @elemDrop index =>
    cases hop
    rw [perform, BasicOp.exec]
    cases site.inst.elems[index]? with
    | none => exact .pure ⟨.intro hs, hlen⟩
    | some addr =>
      exact .bind (P := fun _ => True) (fun _ _ _ _ => trivial) fun _ _ => .pure ⟨.intro hs, hlen⟩
  | tableCopy _ _ => cases hop; exact acts_onFrame (Frame.framed_tableCopy _ _) hmirrors
  | tableGrow _ => cases hop; exact acts_onFrame (Frame.framed_tableGrow _) hmirrors
  | tableSize _ =>
    cases hop
    exact acts_read hmirrors _ fun t : TableInst => .i32 (BitVec.ofNat 32 t.table.size)
  | tableFill _ => cases hop; exact acts_onFrame (Frame.framed_tableFill _) hmirrors

theorem perform_acts {labels : List (List ValueType)} {unr : Bool} {ops' : List Operand}
    (hop : i.op? site.ctx = some op) (hm : Instr.Moves site.ctx labels i false ops unr ops')
    (hk : ∀ o ∈ ops, o ≠ .unknown) (h : MirrorsWith site below pc ops.length st f) :
    unr = false ∧ Acts (MirrorsWith site below pc ops'.length) (perform st i) (op.exec f) := by
  cases hm with
  | fixed hi ht =>
    have hlen := length_of_take? hk ht
    rw [length_reverse, Nat.add_comm] at hlen
    rw [hlen] at h
    rw [length_append, length_reverse, length_known, Nat.add_comm]
    exact ⟨rfl, acts_fixed hop hi h⟩
  | unreachable | br _ _ | ret _ _ | brIf _ _ | brTable _ _ _ _ => cases hop
  | drop hp =>
    cases hop
    rw [pop?_false_eq] at hp
    subst hp
    obtain ⟨@⟨values, slots, vs, hs⟩, hlen⟩ := h
    obtain ⟨v, rest, rfl⟩ := exists_cons_of_length_eq_add_one hlen
    exact ⟨rfl, .pure ⟨.intro hs, Nat.succ.inj hlen⟩⟩
  | select hi h2 h1 _ _ =>
    cases hop
    rw [pop?_false_eq] at h2 h1
    subst h2
    subst h1
    have htake := length_of_take? hk hi
    obtain ⟨@⟨values, slots, vs, hs⟩, hlen⟩ := h
    have hvs : vs.length = 1 + (_ + 2) := hlen.trans htake
    obtain ⟨c, v, u, rest, rfl⟩ := Frame.exists_three (l := vs) (by omega)
    refine ⟨rfl, .pure ⟨.intro hs, ?_⟩⟩
    show rest.length + 1 = _ + 1
    rw [length_cons, length_cons, length_cons] at hvs
    omega
  | refIsNull hp _ =>
    cases hop
    rw [pop?_false_eq] at hp
    subst hp
    obtain ⟨@⟨values, slots, vs, hs⟩, hlen⟩ := h
    obtain ⟨v, rest, rfl⟩ := exists_cons_of_length_eq_add_one hlen
    exact ⟨rfl, .pure ⟨.intro hs, hlen⟩⟩

end Structured

end Wasm
