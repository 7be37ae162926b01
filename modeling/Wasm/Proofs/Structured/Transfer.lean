import Wasm.Proofs.Lowering.Placement
import Wasm.Proofs.Machine.Steps

/-! # Running branches

Saved values come back as they were, since scratch slots are apart. -/

namespace Wasm

open List Emission LocalSlot
open Assembly (place)
open Machine (Leads LeadsOn)

variable {e : Emission} {p : Nat} {slots : Array Value} {ops rest : List Value} {f : Frame}
  {label : Label}

variable {op : Op Label} {s' : Store} {ss : List Nat} {vs : List Value}

/-! ## Runs of operations in the finished code -/

namespace Emission

def CodeAt (e : Emission) (p : Nat) (ops : List (Op Label)) : Prop :=
  ops <+: e.asm.code.toList.drop p

theorem CodeAt.append {ops ops' : List (Op Label)} (h : e.CodeAt p (ops ++ ops')) :
    e.CodeAt p ops ∧ e.CodeAt (p + ops.length) ops' := by
  obtain ⟨more, hmore⟩ := h
  refine ⟨⟨ops' ++ more, by rw [← hmore, append_assoc]⟩, ⟨more, ?_⟩⟩
  rw [← drop_drop, ← hmore, append_assoc, drop_left]

theorem CodeAt.cons {ops : List (Op Label)} (h : e.CodeAt p (op :: ops)) :
    e.asm.code[p]? = some op ∧ e.CodeAt (p + 1) ops := by
  have hsplit : e.CodeAt p ([op] ++ ops) := h
  obtain ⟨more, hmore⟩ := h
  refine ⟨?_, hsplit.append.2⟩
  rw [← Array.getElem?_toList, ← head?_drop, ← hmore]
  rfl

theorem CodeAt.of_heads {e' fin : Emission} {ops : List (Op Label)} (h : e'.Heads fin)
    (hcode : e'.asm.code = e.asm.code ++ ops.toArray) : fin.CodeAt e.asm.code.size ops := by
  obtain ⟨more, hmore⟩ := h.code
  refine ⟨more, ?_⟩
  rw [← hmore, hcode, Array.toList_append, append_assoc, ← Array.length_toList, drop_left]

end Emission

/-- A function of an instance, with its emission. -/
structure Spot where
  inst : Instance
  func : CompiledFunction
  types : List ValueType
  fin : Emission
  link : fin.asm.link = .ok func.code
  frameSlots : func.frameSlots = fin.nextSlot

namespace Spot

variable (site : Spot)

theorem code : site.func.code = site.fin.asm.code.map (Op.relabel (place site.fin.asm.labels)) :=
  (Assembly.link_eq_ok.mp site.link).2

/-- Slots change behind those of the locals only. -/
structure Same (slots slots' : Array Value) : Prop where
  size : slots'.size = slots.size
  same : ∀ n, n < width site.types → slots'[n]? = slots[n]?

abbrev frame (pc : Nat) (slots : Array Value) (ops : List Value) : Frame :=
  ⟨site.inst, site.func, pc, slots, ops⟩

abbrev state (s : Store) (callers : List Activation) (room pc : Nat) (slots : Array Value)
    (ops : List Value) : StepResult :=
  .next s ⟨.frame (site.frame pc slots ops), callers, room⟩

variable {site} {s : Store} {callers : List Activation} {room pc : Nat}

theorem step_eq (h : site.fin.asm.code[pc]? = some op) (ops : List Value) :
    (site.frame pc slots ops).step =
      (op.relabel (place site.fin.asm.labels)).exec (site.frame (pc + 1) slots ops) := by
  unfold Frame.step
  rw [site.code, Array.getElem?_map, h]
  rfl

theorem leadsOn_next (h : site.fin.asm.code[pc]? = some op)
    (hx : (op.relabel (place site.fin.asm.labels)).exec (site.frame (pc + 1) slots ops) s =
      .ok (.next f) s') :
    LeadsOn (site.state s callers room pc slots ops) (.next s' ⟨.frame f, callers, room⟩) := by
  refine LeadsOn.step ?_
  rw [Machine.step, step_eq h, hx]
  exact .refl _

theorem leadsOn_jumpIf (h : site.fin.asm.code[pc]? = some (.jumpIf label)) (v : Value)
    (ops : List Value) :
    LeadsOn (site.state s callers room pc slots (v :: ops)) (site.state s callers room
      (if v.asI32 ≠ 0 then place site.fin.asm.labels label else pc + 1) slots ops) :=
  leadsOn_next h rfl

theorem leadsOn_jumpUnless (h : site.fin.asm.code[pc]? = some (.jumpUnless label)) (v : Value)
    (ops : List Value) :
    LeadsOn (site.state s callers room pc slots (v :: ops)) (site.state s callers room
      (if v.asI32 = 0 then place site.fin.asm.labels label else pc + 1) slots ops) :=
  leadsOn_next h rfl

theorem leadsOn_jumpTable {labels : List Label} {last : Label}
    (h : site.fin.asm.code[pc]? = some (.jumpTable labels.toArray last)) (v : Value)
    (ops : List Value) :
    LeadsOn (site.state s callers room pc slots (v :: ops)) (site.state s callers room
      (place site.fin.asm.labels (labels[v.asI32.toNat]?.getD last)) slots ops) := by
  refine leadsOn_next h ?_
  have hplace : ((labels.toArray.map (place site.fin.asm.labels))[v.asI32.toNat]?).getD
      (place site.fin.asm.labels last) =
      place site.fin.asm.labels (labels[v.asI32.toNat]?.getD last) := by
    rw [Array.getElem?_map, getElem?_toArray]
    cases labels[v.asI32.toNat]? <;> rfl
  rw [← hplace]
  rfl

theorem step_call (h : site.fin.asm.code[pc]? = some op) {func : FuncAddr}
    (hx : (op.relabel (place site.fin.asm.labels)).exec (site.frame (pc + 1) slots ops) s =
      .ok (.call func f) s') :
    Machine.step s ⟨.frame (site.frame pc slots ops), callers, room⟩ =
      Machine.callFrom s' f func callers room := by
  rw [Machine.step, step_eq h, hx]

theorem step_trap (h : site.fin.asm.code[pc]? = some op) {t : Trap}
    (hx : (op.relabel (place site.fin.asm.labels)).exec (site.frame (pc + 1) slots ops) s =
      .error t s') :
    Machine.step s ⟨.frame (site.frame pc slots ops), callers, room⟩ =
      Machine.unwind s' t callers := by
  rw [Machine.step, step_eq h, hx]

/-! ## Saving, dropping and restoring -/

def setAll (slots : Array Value) : List Nat → List Value → Array Value
  | slot :: rest, v :: vs => setAll (slots.setIfInBounds slot v) rest vs
  | _, _ => slots

theorem getElem?_setAll_of_notMem {slot : Nat} (h : slot ∉ ss)
    (slots : Array Value) (vs : List Value) : (setAll slots ss vs)[slot]? = slots[slot]? := by
  induction ss generalizing slots vs with
  | nil => rfl
  | cons other ss ih =>
    rw [mem_cons, not_or] at h
    cases vs with
    | nil => rfl
    | cons v vs => rw [setAll, ih h.2, Array.getElem?_setIfInBounds_ne (Ne.symm h.1)]

theorem map_getElem?_setAll (hnd : ss.Nodup) (hlt : ∀ slot ∈ ss, slot < slots.size)
    (hlen : vs.length = ss.length) :
    ss.map (fun slot => (setAll slots ss vs)[slot]?) = vs.map some := by
  induction ss generalizing slots vs with
  | nil => rw [length_eq_zero_iff.mp hlen]; rfl
  | cons slot ss ih =>
    obtain ⟨v, vs, rfl⟩ := exists_cons_of_length_eq_add_one hlen
    obtain ⟨hnot, hnd'⟩ := nodup_cons.mp hnd
    obtain ⟨hslot, hlt'⟩ := forall_mem_cons.mp hlt
    rw [map_cons, map_cons, setAll, getElem?_setAll_of_notMem hnot,
      Array.getElem?_setIfInBounds_self_of_lt hslot, ih hnd' ?_ (Nat.succ.inj hlen)]
    intro other hother
    rw [Array.size_setIfInBounds]
    exact hlt' other hother

theorem size_setAll (slots : Array Value) (ss : List Nat) (vs : List Value) :
    (setAll slots ss vs).size = slots.size := by
  induction ss generalizing slots vs with
  | nil => rfl
  | cons slot ss ih =>
    cases vs with
    | nil => rfl
    | cons v vs => rw [setAll, ih, Array.size_setIfInBounds]

theorem leads_sets (h : site.fin.CodeAt pc (ss.map fun slot => .basic (.localSet slot)))
    (hlen : vs.length = ss.length) :
    Leads (site.state s callers room pc slots (vs ++ rest))
      (site.state s callers room (pc + ss.length) (setAll slots ss vs) rest) := by
  induction ss generalizing pc slots vs with
  | nil =>
    rw [length_eq_zero_iff.mp hlen]
    exact .refl _
  | cons slot ss ih =>
    obtain ⟨v, vs, rfl⟩ := exists_cons_of_length_eq_add_one hlen
    obtain ⟨hop, hmore⟩ := h.cons
    rw [length_cons, Nat.add_comm ss.length, ← Nat.add_assoc]
    exact (leadsOn_next hop rfl).leads.trans (ih hmore (Nat.succ.inj hlen))

theorem leads_drops (h : site.fin.CodeAt pc ((List.replicate vs.length BasicOp.drop).map .basic)) :
    Leads (site.state s callers room pc slots (vs ++ rest))
      (site.state s callers room (pc + vs.length) slots rest) := by
  induction vs generalizing pc with
  | nil => exact .refl _
  | cons v vs ih =>
    obtain ⟨hop, hmore⟩ := h.cons
    rw [length_cons, Nat.add_comm vs.length, ← Nat.add_assoc]
    exact (leadsOn_next hop rfl).leads.trans (ih hmore)

theorem leads_gets (h : site.fin.CodeAt pc (ss.map fun slot => .basic (.localGet slot)))
    (hget : ss.map (fun slot => slots[slot]?) = vs.map some) :
    Leads (site.state s callers room pc slots rest)
      (site.state s callers room (pc + ss.length) slots (vs.reverse ++ rest)) := by
  induction ss generalizing pc vs rest with
  | nil =>
    rw [map_eq_nil_iff.mp hget.symm]
    exact .refl _
  | cons slot ss ih =>
    obtain ⟨v, vs, rfl⟩ : ∃ v vs', vs = v :: vs' := by
      cases vs with
      | nil => cases hget
      | cons v vs => exact ⟨v, vs, rfl⟩
    obtain ⟨hv, hvs⟩ := List.cons.inj hget
    obtain ⟨hop, hmore⟩ := h.cons
    have hpush : BasicOp.exec (site.frame (pc + 1) slots rest) (.localGet slot) s =
        .ok (.next (site.frame (pc + 1) slots (v :: rest))) s := by
      have hv' : slots[slot]? = some v := hv
      rw [BasicOp.exec, hv']
      rfl
    rw [length_cons, Nat.add_comm ss.length, ← Nat.add_assoc, reverse_cons, append_assoc]
    exact (leadsOn_next hop hpush).leads.trans (ih hmore hvs)

/-! ## Branches -/

theorem leads_transfer {carried discarded : List Value} (hsize : slots.size = site.fin.nextSlot)
    (h : site.fin.CodeAt pc ((transferOps ss discarded.length).map .basic))
    (hnd : ss.Nodup) (hle : ∀ slot ∈ ss, width site.types ≤ slot)
    (hlt : ∀ slot ∈ ss, slot < site.fin.nextSlot) (hlen : carried.length = ss.length) :
    ∃ slots', site.Same slots slots' ∧
      Leads (site.state s callers room pc slots (carried ++ (discarded ++ rest)))
        (site.state s callers room (pc + (transferOps ss discarded.length).length) slots'
          (carried ++ rest)) := by
  unfold transferOps at h ⊢
  rw [map_append, map_append, map_map, map_map] at h
  obtain ⟨hsets, hmore⟩ := h.append
  obtain ⟨hdrops, hgets⟩ := hmore.append
  rw [length_map, length_reverse] at hdrops hgets
  rw [length_map, length_replicate] at hgets
  have hlen' : carried.length = ss.reverse.length := hlen.trans length_reverse.symm
  have hget : ss.map (fun slot => (setAll slots ss.reverse carried)[slot]?) =
      carried.reverse.map some := by
    have hsaved := map_getElem?_setAll (pairwise_reverse.mpr (hnd.imp Ne.symm))
      (fun slot hm => hsize ▸ hlt slot (mem_reverse.mp hm)) hlen'
    rw [map_reverse] at hsaved ⊢
    rw [← hsaved, reverse_reverse]
  refine ⟨setAll slots ss.reverse carried, ⟨size_setAll _ _ _, fun n hn => ?_⟩, ?_⟩
  · refine getElem?_setAll_of_notMem (fun hm => ?_) _ _
    exact Nat.not_lt.mpr (hle n (mem_reverse.mp hm)) hn
  refine (leads_sets hsets hlen').trans ?_
  rw [length_reverse]
  refine (leads_drops hdrops).trans ?_
  have hback : Leads (site.state s callers room _ _ rest) _ := leads_gets hgets hget
  rw [reverse_reverse] at hback
  simp only [length_append, length_map, length_reverse, length_replicate, ← Nat.add_assoc]
  exact hback

section Branches

variable {scopes : List Scope} {depth : Nat} {target : Scope}

theorem leads_branch (ht : scopes[depth]? = some target) (hl : Scope.AllLive scopes)
    (hp : (e.branch ⟨[], scopes⟩ depth).Heads site.fin)
    (hsep : e.Separate (width site.types)) (hsize : slots.size = site.fin.nextSlot)
    (hops : ops.length = (Scope.above scopes depth).length)
    (hle : target.branchTypes.length ≤ ops.length) :
    ∃ slots', site.Same slots slots' ∧
      LeadsOn (site.state s callers room e.asm.code.size slots (ops ++ rest))
        (site.state s callers room (place site.fin.asm.labels target.label) slots'
          (ops.take target.branchTypes.length ++ rest)) := by
  obtain ⟨ss, hasm, hslots⟩ := e.branch_spec ht hl
  have hcode : site.fin.CodeAt e.asm.code.size
      (branchOps ss (Scope.surplus scopes depth target) target.label) :=
    .of_heads hp (by rw [hasm])
  have hsurplus : Scope.surplus scopes depth target = ops.length - target.branchTypes.length := by
    rw [Scope.surplus, hops]
  unfold branchOps at hcode
  split at hcode
  · next hzero =>
      -- Nothing is discarded: the branch is a jump.
      have htake : ops.take target.branchTypes.length = ops := take_of_length_le (by omega)
      obtain ⟨hjump, -⟩ := hcode.cons
      rw [htake]
      exact ⟨slots, ⟨rfl, fun _ _ => rfl⟩, leadsOn_next hjump rfl⟩
  · next hsome =>
      obtain ⟨rfl, hmade⟩ := hslots hsome
      obtain ⟨htransfer, hmore⟩ := hcode.append
      obtain ⟨hjump, -⟩ := hmore.cons
      have hsplit : ops ++ rest = ops.take target.branchTypes.length ++
          (ops.drop target.branchTypes.length ++ rest) := by
        rw [← append_assoc, take_append_drop]
      have hdrop : (ops.drop target.branchTypes.length).length =
          Scope.surplus scopes depth target := by
        rw [length_drop, hsurplus]
      have hb := scratchSlots_bounds hsep target.branchTypes
      have hlen : (ops.take target.branchTypes.length).length =
          (Emission.scratchSlots [] target.branchTypes e).1.length := by
        rw [length_take, length_scratchSlots, Nat.min_eq_left hle]
      rw [← hdrop] at htransfer hjump
      rw [hsplit]
      obtain ⟨slots', hs', hlead⟩ := @leads_transfer _ rest _ site s callers room _ _ _ hsize
        htransfer (scratchSlots_nodup hsep _) (fun slot hm => (hb slot hm).1)
        (fun slot hm => Nat.lt_of_lt_of_le (hb slot hm).2 (hmade.trans hp).nextSlot) hlen
      rw [length_map] at hjump
      exact ⟨slots', hs', hlead.trans_on (leadsOn_next hjump rfl)⟩

theorem leads_diverts {start stop : Nat} (h : Emission.Diverts site.fin (width site.types)
      scopes depth start stop target pc)
    (ht : scopes[depth]? = some target) (hl : Scope.AllLive scopes)
    (hsize : slots.size = site.fin.nextSlot) (hops : ops.length = (Scope.above scopes depth).length)
    (hle : target.branchTypes.length ≤ ops.length) :
    ∃ slots', site.Same slots slots' ∧ Leads (site.state s callers room pc slots (ops ++ rest))
        (site.state s callers room (place site.fin.asm.labels target.label) slots'
          (ops.take target.branchTypes.length ++ rest)) := by
  cases h with
  | jump hzero _ _ =>
    rw [Scope.surplus, ← hops] at hzero
    rw [take_of_length_le (Nat.sub_eq_zero_iff_le.mp hzero)]
    exact ⟨slots, ⟨rfl, fun _ _ => rfl⟩, .refl _⟩
  | code hsep _ hheads _ =>
    obtain ⟨slots', hs', hlead⟩ := leads_branch ht hl hheads hsep hsize hops hle
    exact ⟨slots', hs', hlead.leads⟩

theorem leads_branchIf (hk : (e.branchIf ⟨[], scopes⟩ depth).Kept site.fin)
    (hsep : e.Separate (width site.types)) (ht : scopes[depth]? = some target)
    (hl : Scope.AllLive scopes) (hsize : slots.size = site.fin.nextSlot)
    (hops : ops.length = (Scope.above scopes depth).length)
    (hle : target.branchTypes.length ≤ ops.length) (v : Value) :
    if v.asI32 ≠ 0 then ∃ slots', site.Same slots slots' ∧
      LeadsOn (site.state s callers room e.asm.code.size slots (v :: (ops ++ rest)))
        (site.state s callers room (place site.fin.asm.labels target.label) slots'
          (ops.take target.branchTypes.length ++ rest))
    else LeadsOn (site.state s callers room e.asm.code.size slots (v :: (ops ++ rest)))
      (site.state s callers room (e.branchIf ⟨[], scopes⟩ depth).asm.code.size slots
        (ops ++ rest)) := by
  obtain ⟨label, ⟨hop, hstop, hq⟩ | ⟨hop, hskip, hq⟩⟩ := hk.branchIf ht hl hsep
  · have hlead := @leadsOn_jumpIf slots _ site s callers room _ hop v (ops ++ rest)
    split
    · next hc =>
        rw [if_pos hc] at hlead
        obtain ⟨slots', hs', hmore⟩ := leads_diverts hq ht hl hsize hops hle
        exact ⟨slots', hs', hlead.trans hmore⟩
    · next hc =>
        rw [if_neg hc] at hlead
        rwa [hstop]
  · have hlead := @leadsOn_jumpUnless slots _ site s callers room _ hop v (ops ++ rest)
    split
    · next hc =>
        rw [if_neg hc] at hlead
        obtain ⟨slots', hs', hmore⟩ := leads_diverts hq ht hl hsize hops hle
        exact ⟨slots', hs', hlead.trans hmore⟩
    · next hc =>
        rwa [if_pos (Decidable.of_not_not hc), hskip] at hlead

theorem leads_branchTable {depths : List Nat} {default : Nat} {v : Value}
    (hk : (e.branchTable ⟨[], scopes⟩ depths default).Kept site.fin)
    (hsep : e.Separate (width site.types))
    (ht : scopes[depths[v.asI32.toNat]?.getD default]? = some target) (hl : Scope.AllLive scopes)
    (hsize : slots.size = site.fin.nextSlot)
    (hops : ops.length = (Scope.above scopes (depths[v.asI32.toNat]?.getD default)).length)
    (hle : target.branchTypes.length ≤ ops.length) :
    ∃ slots', site.Same slots slots' ∧
      LeadsOn (site.state s callers room e.asm.code.size slots (v :: (ops ++ rest)))
        (site.state s callers room (place site.fin.asm.labels target.label) slots'
          (ops.take target.branchTypes.length ++ rest)) := by
  obtain ⟨labels, last, hop, hq⟩ := hk.branchTable hl hsep
  obtain ⟨slots', hs', hmore⟩ := leads_diverts (hq _ target ht) ht hl hsize hops hle
  exact ⟨slots', hs', (leadsOn_jumpTable hop v _).trans hmore⟩

end Branches

end Spot

end Wasm
