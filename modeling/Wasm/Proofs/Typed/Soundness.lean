import Wasm.Proofs.Structured.Functions
import Wasm.Proofs.Typed.Stores

/-! # Type soundness

In all that a host comes to (`Reached`) a frame holds what the translator tracked. -/

namespace Wasm

open List LocalSlot
open Shape (ones yields)
open LocalSlot (typeAt? layout layoutFrom width)

variable {s s' : Store} {vs : List Value} {func : CompiledFunction} {f : Frame}
  {types : List ValueType} {callers : List Activation}

variable {args : List Value} {f' : Frame} {type : FuncType} {mc : Machine} {fuel : Nat}

/-! ## Arguments and locals -/

variable {params : List ValueType}

theorem map_type?_of_argumentError? (h : argumentError? params args = none) :
    args.map Value.type? = params.map some := by
  unfold argumentError? at h
  split at h
  · cases h
  · next hlen =>
      rw [Option.map_eq_none_iff, find?_eq_none] at h
      have hall : Forall₂ (fun arg type => Value.type? arg = some type) args params := by
        refine forall₂_iff_zip.mpr ⟨(not_not.mp hlen).symm, fun {arg type} hmem => ?_⟩
        obtain ⟨i, hi⟩ := mem_iff_getElem?.mp hmem
        have := h ((arg, type), i) (mem_zipIdx_iff_getElem?.mpr hi)
        simpa using this
      exact Values.ones_iff.mp (forall₂_map_right_iff.mpr hall)

theorem Values.arguments {rest : List Shape} (h : Values vs (ones params.reverse ++ rest)) :
    (vs.take params.length).reverse.map Value.type? = params.map some ∧
      Values (vs.drop params.length) rest := by
  obtain ⟨us, ws, rfl, hus, hws⟩ := Values.append_iff.mp h
  have hlen : us.length = params.length := by
    simpa [ones] using hus.length_eq
  rw [take_left' hlen, drop_left' hlen]
  have hargs := Values.ones_iff.mp hus.reverse
  rw [reverse_reverse] at hargs
  exact ⟨hargs, hws⟩

theorem Translation.fits_enter {m : Module} (T : Translation m func) (inst : Instance)
    (ha : args.map Value.type? = func.type.params.map some) :
    (Frame.enter inst func args).Fits (func.view []) := by
  have hall : (args ++ ((T.body.localTypes func.type.params).drop args.length).map Value.zero).map
      Value.type? = (T.body.localTypes func.type.params).map some := by
    have hlen : args.length = func.type.params.length := by
      simpa using congrArg List.length ha
    rw [Body.localTypes, hlen, drop_left, map_append, map_append, ha, map_map]
    exact congrArg _ (map_congr_left fun t _ => Value.type?_zero t)
  have hroom : 0 + width (T.body.localTypes func.type.params) ≤
      (Array.replicate func.frameSlots (Value.i32 0)).size := by
    rw [Nat.zero_add, Array.size_replicate, T.frameSlots_eq]
    exact T.heads_fin.nextSlot
  refine ⟨.nil, fun slot type ht => ?_⟩
  rw [CompiledFunction.view, T.locals_eq] at ht
  obtain ⟨i, entry, hi, rfl, rfl⟩ := exists_of_typeAt?_layout ht
  have htype := (getElem?_layout hi).1
  rw [layout, getElem?_toArray] at hi
  have hvalue := @Frame.getElem?_fillLocals 0 args _ i _ entry hroom hi
  have hget := congrArg (·[i]?) hall
  rw [getElem?_map, getElem?_map, htype, ← hvalue] at hget
  obtain ⟨v, hv, hvtype⟩ := Option.map_eq_some_iff.mp hget
  refine ⟨v, ?_, hvtype⟩
  show (Frame.fillLocals func.locals.toList args _)[entry.slot]? = some v
  rw [T.locals_eq]
  exact hv

/-! ## Frames and what waits -/

section Frames

variable {strict : Prop}

/-- A frame runs a function of an accepted module. -/
structure Frame.Resident (strict : Prop) (f : Frame) (s : Store) : Prop where
  lives : strict → ∃ home, s.instance? home = some f.inst
  compiled : ∃ options binary, Module.compile options binary = .ok f.inst.module
  placed : f.inst.Placed s
  function : f.func ∈ f.inst.module.functions
  size : f.locals.size = f.func.frameSlots

namespace Frame

theorem Resident.home (h : f.Resident True s) : ∃ home, s.instance? home = some f.inst :=
  h.lives trivial

section

variable (h : f.Resident strict s)
include h

theorem Resident.mono (hi : s.Includes strict s') : f.Resident strict s' := by
  refine { h with lives := fun hstrict => ?_, placed := h.placed.extend hi.objects }
  obtain ⟨home, hhome⟩ := h.lives hstrict
  exact ⟨home, hi.instances hstrict home _ hhome⟩

theorem Resident.continues (hc : f.Continues f') : f'.Resident strict s := by
  obtain ⟨hinst, hfunc, hsize⟩ := hc
  refine ⟨?_, ?_, ?_, ?_, ?_⟩
  · rw [hinst]
    exact h.lives
  · rw [hinst]
    exact h.compiled
  · rw [hinst]
    exact h.placed
  · rw [hinst, hfunc]
    exact h.function
  · rw [hsize, hfunc]
    exact h.size

theorem Resident.housed : f.Housed strict s := by
  obtain ⟨options, binary, hcompile⟩ := h.compiled
  exact ⟨h.lives, h.placed, (Module.wellFormed_of_compile hcompile).toConsistent⟩

theorem Resident.translation (_ : s.Sound strict) :
    Nonempty (Translation f.inst.module f.func) := by
  obtain ⟨options, binary, hcompile⟩ := h.compiled
  obtain ⟨i, hi⟩ := Array.mem_iff_getElem?.mp h.function
  exact (Module.exists_translation hcompile hi).1

end

/-- A frame fits its place once it has these results. -/
structure Awaits (strict : Prop) (f : Frame) (s : Store) (types : List ValueType) : Prop where
  resident : f.Resident strict s
  sound : ∀ T : Translation f.inst.module f.func, ∃ rest slots,
    T.Sound f.pc ⟨yields types ++ rest, slots⟩ ∧ f.Fits ⟨rest, slots⟩

theorem Awaits.mono (h : f.Awaits strict s types) (hi : s.Includes strict s') :
    f.Awaits strict s' types := ⟨h.resident.mono hi, h.sound⟩

theorem Awaits.receive (h : f.Awaits strict s types) (hvs : Values vs (yields types)) :
    Awaits strict { f with operands := vs ++ f.operands } s [] where
  resident := h.resident.continues (.withOperands f _)
  sound T := by
    obtain ⟨rest, slots, hT, hf⟩ := h.sound T
    exact ⟨_, slots, hT, rel_append hvs hf.operands, hf.slots⟩

theorem awaits_enter (hs : s.Sound strict) {home : InstanceAddr} {inst : Instance} {index : Nat}
    (hinst : s.instance? home = some inst) (hf : inst.module.functions[index]? = some func)
    (ha : args.map Value.type? = func.type.params.map some) :
    (enter inst func args).Awaits strict s [] where
  resident := by
    obtain ⟨binaries, hhosts⟩ := hs.hosts
    obtain ⟨options, hcompile⟩ := hhosts.compiled home inst hinst
    refine ⟨fun _ => ⟨home, hinst⟩, ⟨options, _, hcompile⟩, hhosts.placed home inst hinst,
      Array.mem_of_getElem? hf, ?_⟩
    show (fillLocals _ args (Array.replicate func.frameSlots (Value.i32 0))).size = _
    rw [size_fillLocals, Array.size_replicate]
    rfl
  sound T := ⟨[], _, T.sound_entry, T.fits_enter inst ha⟩

theorem Awaits.step_eq_ok (h : f.Awaits strict s []) (hs : s.Sound strict) {effect : Effect}
    (hstep : f.step s = .ok effect s') :
    s.Evolves strict s' ∧ ∀ T : Translation f.inst.module f.func, ∃ places,
      (∀ place ∈ places, T.Sound place.1 place.2) ∧
        effect.Lands s { f with pc := f.pc + 1 } places := by
  have hlands : ∀ T : Translation f.inst.module f.func, s.Evolves strict s' ∧ ∃ places,
      (∀ place ∈ places, T.Sound place.1 place.2) ∧
        effect.Lands s { f with pc := f.pc + 1 } places := by
    intro T
    obtain ⟨rest, slots, hsound, hfits⟩ := h.sound T
    obtain ⟨b, hab, -, -, op, places, hop, hleads, hplaces⟩ := hsound.flows
    have hhoused := h.resident.housed
    have hb := hfits.mono hab
    rw [step, hop] at hstep
    obtain ⟨he, hlands⟩ := @Op.Leads.exec s { f with pc := f.pc + 1 } strict b f.pc op places
      hleads rfl h.resident.size ⟨hhoused.present, hhoused.placed, hhoused.consistent⟩
      ⟨hb.operands, hb.slots⟩ s effect s' hs.self_evolves hstep
    exact ⟨he, places, hplaces, hlands⟩
  obtain ⟨T⟩ := h.resident.translation hs
  exact ⟨(hlands T).1, fun T => (hlands T).2⟩

theorem Awaits.exists_view (h : f.Awaits strict s []) (T : Translation f.inst.module f.func) :
    ∃ view, T.Tracks f.pc view ∧ f.func.Admits f.pc view ∧ f.Fits view := by
  obtain ⟨rest, slots, hsound, hfits⟩ := h.sound T
  obtain ⟨view, himplies, htracks, hadmits, -⟩ := hsound.flows
  exact ⟨view, htracks, hadmits, hfits.mono himplies⟩

theorem Awaits.exists_ready (h : f.Awaits True s []) (hs : s.Sound True)
    (T : Translation f.inst.module f.func) :
    ∃ op, f.func.code[f.pc]? = some op ∧ op.Ready s f := by
  obtain ⟨rest, slots, hsound, hfits⟩ := h.sound T
  obtain ⟨view, himplies, -, -, op, places, hop, hleads, hplaces⟩ := hsound.flows
  refine ⟨op, hop, hleads.ready h.resident.size h.resident.housed hs.typed (hfits.mono himplies)
    hs.callable fun target ht => ?_⟩
  -- A jump leads to a place of the code.
  obtain ⟨b, hb⟩ := hleads.exists_place target ht
  obtain ⟨_, -, -, -, op', _, hop', -⟩ := (hplaces _ hb).flows
  exact (Array.getElem?_eq_some_iff.mp hop').1

theorem Fits.holds_local {view : View} (h : f.Fits view) (T : Translation f.inst.module f.func)
    (hl : LocalSlot.Retains f.func.locals.toList view.slots) {i : Nat} {type : ValueType}
    (ht : (T.body.localTypes f.func.type.params)[i]? = some type) :
    ∃ slot v, f.func.locals[i]? = some ⟨type, slot⟩ ∧ f.locals[slot]? = some v ∧
      v.type? = some type := by
  have hlt : i < f.func.locals.size := by
    rw [T.locals_eq, size_layout]
    exact (List.getElem?_eq_some_iff.mp ht).1
  have hentry := Array.getElem?_eq_getElem hlt
  generalize f.func.locals[i] = entry at hentry
  rw [T.locals_eq] at hentry hl
  cases ht.symm.trans (getElem?_layout hentry).1
  obtain ⟨v, hv, htype⟩ := h.slots _ _ (hl _ _ (typeAt?_layout hentry))
  exact ⟨entry.slot, v, by rw [T.locals_eq]; exact hentry, hv, htype⟩

end Frame

def Waits (strict : Prop) (s : Store) : List ValueType → List Activation → Prop
  | _, [] => True
  | types, .frame f :: callers => f.Awaits strict s types ∧
      Waits strict s f.func.type.results callers
  | _, .host type _ _ _ :: callers => Waits strict s type.results callers

theorem Waits.mono (hi : s.Includes strict s') (h : Waits strict s types callers) :
    Waits strict s' types callers := by
  induction callers generalizing types with
  | nil => trivial
  | cons caller callers ih =>
    cases caller with
    | frame f => exact ⟨h.1.mono hi, ih h.2⟩
    | host type arity room resume => exact @ih type.results h

end Frames

/-! ## Steps -/

def StepResult.after : Nat → StepResult → StepResult
  | n + 1, next s ⟨.frame f, callers, room⟩ => after n (Machine.step s ⟨.frame f, callers, room⟩)
  | _, r => r

def Machine.Sound (strict : Prop) (s : Store) : Machine → Prop
  | ⟨.frame f, callers, _⟩ => f.Awaits strict s [] ∧ Waits strict s f.func.type.results callers
  | ⟨.host type _, callers, _⟩ => Waits strict s type.results callers

theorem Machine.Sound.mono {strict : Prop} (hi : s.Includes strict s') (h : mc.Sound strict s) :
    mc.Sound strict s' := by
  obtain ⟨control, callers, room⟩ := mc
  cases control with
  | frame f => exact ⟨h.1.mono hi, h.2.mono hi⟩
  | host type program => exact Waits.mono hi h

/-- A sound store with a sound machine, if any. -/
structure Coherent (strict : Prop) (s : Store) (running : Option Machine) : Prop where
  store : s.Sound strict
  machine : ∀ mc ∈ running, mc.Sound strict s

abbrev StepResult.Coherent (strict : Prop) (r : StepResult) : Prop :=
  Wasm.Coherent strict r.store r.machine?

theorem Coherent.idle {strict : Prop} (h : s.Sound strict) : Coherent strict s none :=
  ⟨h, fun _ hmc => nomatch hmc⟩

theorem Coherent.running {strict : Prop} (h : s.Sound strict) (hmc : mc.Sound strict s) :
    Coherent strict s (some mc) :=
  ⟨h, fun _ heq => Option.mem_some_iff.mp heq ▸ hmc⟩

namespace Machine

variable {strict : Prop}

section

variable (hs : s.Sound strict)
include hs

theorem coherent_unwind (t : Trap) (h : Waits strict s types callers) :
    (unwind s t callers).Coherent strict := by
  induction callers generalizing types with
  | nil => exact .idle hs
  | cons caller callers ih =>
    cases caller with
    | frame f => exact ih h.2
    | host type arity room resume => exact .running hs h

theorem coherent_deliver {yielded : List Value} (hv : Values yielded (yields types))
    (h : Waits strict s types callers) (room : Nat) :
    (deliver s yielded callers room).Coherent strict := by
  cases callers with
  | nil => exact .idle hs
  | cons caller callers =>
    cases caller with
    | frame f => exact .running hs ⟨h.1.receive hv, h.2⟩
    | host type arity room resume => exact .running hs h

theorem coherent_call {func : FuncAddr} (ht : s.funcType? func = some type)
    (ha : args.map Value.type? = type.params.map some) (h : Waits strict s type.results callers)
    (room : Nat) : (call s func args callers room).Coherent strict := by
  obtain ⟨entry, hentry, rfl⟩ := Option.map_eq_some_iff.mp ht
  unfold call
  rw [hentry]
  cases entry with
  | host type body => exact .running hs h
  | wasm type home index =>
    dsimp only
    split
    · exact coherent_unwind hs _ h
    · next inst hinst =>
        obtain ⟨func, hfunc, rfl⟩ := hs.callee hentry hinst
        cases room with
        | zero => exact coherent_unwind hs _ h
        | succ room =>
          rw [hfunc]
          exact .running hs ⟨Frame.awaits_enter hs hinst hfunc ha, h⟩

theorem coherent_hostStep (h : Waits strict s type.results callers) {program : HostProgram}
    {room : Nat} (hmc : change? ⟨.host type program, callers, room⟩ = none) :
    (hostStep s type program callers room).Coherent strict := by
  cases program with
  | answer values =>
    rw [hostStep]
    split
    · next hvalues => exact coherent_deliver hs (Values.pack hvalues) h room
    · exact coherent_unwind hs _ h
  | trap t => exact coherent_unwind hs t h
  | inspect resume => exact .running hs h
  | change c next => cases hmc
  | report event next =>
    have ha := s.agrees_trace (s.trace.push event)
    have he : s.Evolves strict { s with trace := s.trace.push event } :=
      ⟨ha, hs.typed.globals, hs.typed.tables, hs.typed.elems⟩
    exact .running (hs.evolves he) (h.mono ha.includes)
  | invoke func args resume =>
    rw [hostStep]
    split
    · exact coherent_unwind hs _ h
    · next callee hcallee =>
        split
        · exact .running hs h
        · next harg =>
            have hwaits : Waits strict s callee.results
                (.host type callee.results.length room resume :: callers) := h
            exact coherent_call hs hcallee (map_type?_of_argumentError? harg) hwaits _

theorem coherent_next (hf : f.Awaits strict s []) (h : Waits strict s f.func.type.results callers)
    (hstep : f.step s = .ok (.next f') s') (room : Nat) :
    Coherent strict s' (some ⟨.frame f', callers, room⟩) := by
  obtain ⟨he, hlands⟩ := hf.step_eq_ok hs hstep
  have hcontinues : f.Continues f' := f.step_acts.continues hstep
  have hresident := (hf.resident.continues hcontinues).mono he.agrees.includes
  obtain ⟨inst, func, pc, locals, operands⟩ := f'
  obtain rfl : inst = f.inst := hcontinues.inst
  obtain rfl : func = f.func := hcontinues.func
  refine .running (hs.evolves he) ⟨⟨hresident, fun T => ?_⟩, h.mono he.agrees.includes⟩
  obtain ⟨places, hplaces, b, hmem, hfits⟩ := hlands T
  exact ⟨b.operands, b.slots, hplaces _ hmem, hfits⟩

theorem coherent_callFrom (hf : f.Awaits strict s [])
    (h : Waits strict s f.func.type.results callers) {addr : FuncAddr}
    (hstep : f.step s = .ok (.call addr f') s') (room : Nat) :
    (callFrom s f' addr callers room).Coherent strict := by
  obtain ⟨-, hlands⟩ := hf.step_eq_ok hs hstep
  obtain ⟨T⟩ := hf.resident.translation hs
  obtain ⟨_, -, type, rest, slots, ht, -, hfits⟩ := hlands T
  have hcontinues : f.Continues f' := f.step_acts.continues hstep
  have hresident := hf.resident.continues hcontinues
  obtain ⟨entry, hentry, rfl⟩ := Option.map_eq_some_iff.mp ht
  obtain ⟨inst, func, pc, locals, operands⟩ := f'
  obtain rfl : inst = f.inst := hcontinues.inst
  obtain rfl : func = f.func := hcontinues.func
  -- Without the arguments the frame waits for what the function yields.
  have hawaits : Frame.Awaits strict
      ⟨f.inst, f.func, pc, locals, operands.drop entry.type.params.length⟩ s
      entry.type.results := by
    refine ⟨hresident.continues (.withOperands _ _), fun T => ?_⟩
    obtain ⟨places, hplaces, type, rest, slots, ht', hmem, hfits⟩ := hlands T
    cases ht.symm.trans ht'
    exact ⟨rest, slots, hplaces _ hmem, (Values.arguments hfits.operands).2, hfits.slots⟩
  have hwaits : Waits strict s entry.type.results (.frame _ :: callers) := ⟨hawaits, h⟩
  unfold callFrom
  rw [hentry]
  exact coherent_call hs ht (Values.arguments hfits.operands).1 hwaits room

end

theorem coherent_step (h : Coherent strict s (some mc)) (hchange : mc.change? = none) :
    (step s mc).Coherent strict := by
  have hs := h.store
  have hmc := h.machine mc rfl
  obtain ⟨control, callers, room⟩ := mc
  cases control with
  | host type program => exact coherent_hostStep hs hmc hchange
  | frame f =>
    obtain ⟨hf, hwaits⟩ := hmc
    rw [step]
    cases hstep : f.step s with
    | error t s' =>
      cases f.step_acts.error hstep
      exact coherent_unwind hs t hwaits
    | ok effect s' =>
      cases effect with
      | next f' => exact coherent_next hs hf hwaits hstep room
      | call addr f' =>
        cases f.step_acts.call hstep
        exact coherent_callFrom hs hf hwaits hstep room
      | leave f' =>
        obtain ⟨he, hlands⟩ := hf.step_eq_ok hs hstep
        obtain ⟨T⟩ := hf.resident.translation hs
        obtain ⟨_, -, hresult⟩ := hlands T
        exact coherent_deliver (hs.evolves he) hresult (hwaits.mono he.agrees.includes) _

end Machine

/-! ## Everything that is reached -/

open Relation (ReflTransGen)

namespace World

variable {strict : Prop} {w w' : World}

/-- **What happens keeps a world sound.** -/
theorem Next.coherent (h : Next strict GlobalInst.Typed w w')
    (hw : Coherent strict w.store w.running) : Coherent strict w'.store w'.running := by
  cases h with
  | act hout ha =>
    obtain ⟨hs, hincludes⟩ := ha.sound hw.store
    exact ⟨hs, fun mc hmc => (hw.machine mc hmc).mono hincludes⟩
  | turn =>
    have hwaits := hw.machine _ rfl
    exact .running hw.store hwaits
  | @call s func type args ht ha depth =>
    have hwaits : Waits strict s type.results [] := trivial
    exact Machine.coherent_call hw.store ht (map_type?_of_argumentError? ha) hwaits depth
  | step hmc => exact Machine.coherent_step hw hmc

theorem coherent (h : ReflTransGen (Next strict GlobalInst.Typed) initial w) :
    Coherent strict w.store w.running := by
  induction h with
  | refl => exact .idle Store.sound_empty
  | tail _ hnext ih => exact hnext.coherent ih

end World

/-- The stores that a strict host comes to from the empty one, and the machine that runs if one
    does. The host makes globals with values of their types, puts in tables what is of their types,
    and keeps the instances that it made. -/
def Reached (s : Store) (running : Option Machine) : Prop :=
  ReflTransGen (World.Next True GlobalInst.Typed) .initial ⟨s, running⟩

namespace Reached

theorem empty : Reached .empty none := ReflTransGen.refl

theorem next {running running' : Option Machine} (h : Reached s running)
    (hnext : World.Next True GlobalInst.Typed ⟨s, running⟩ ⟨s', running'⟩) : Reached s' running' :=
  ReflTransGen.tail h hnext

theorem after {r : StepResult} (h : Reached r.store r.machine?) (n : Nat) :
    Reached (r.after n).store (r.after n).machine? := by
  induction n generalizing r with
  | zero => exact h
  | succ n ih =>
    cases r with
    | done s outcome => exact h
    | next s mc =>
      obtain ⟨control, callers, room⟩ := mc
      cases control with
      | frame f => exact ih (h.next (.step rfl))
      | host type program => exact h

/-- **Type soundness**: the operands of a frame in control are of the types tracked for its next
    operation, its locals of their declared types, and the operation finds all that it needs. -/
theorem type_sound {f : Frame} {callers : List Activation} {room : Nat}
    (h : Reached s (some ⟨.frame f, callers, room⟩)) :
    (∃ home, s.instance? home = some f.inst) ∧ f.func ∈ f.inst.module.functions ∧
      Nonempty (Translation f.inst.module f.func) ∧
      (∀ T : Translation f.inst.module f.func,
        (∃ view, T.Tracks f.pc view ∧ f.func.Shaped f.pc view.operands ∧
          Values f.operands view.operands) ∧
        ∀ (i : Nat) (type : ValueType), (T.body.localTypes f.func.type.params)[i]? = some type →
          ∃ slot v, f.func.locals[i]? = some ⟨type, slot⟩ ∧ f.locals[slot]? = some v ∧
            v.type? = some type) ∧
      ∃ op, f.func.code[f.pc]? = some op ∧ op.Ready s f := by
  have hcoherent := World.coherent h
  have hs := hcoherent.store
  obtain ⟨hf, -⟩ := hcoherent.machine _ rfl
  obtain ⟨T0⟩ := hf.resident.translation hs
  refine ⟨hf.resident.home, hf.resident.function, ⟨T0⟩, fun T => ?_, hf.exists_ready hs T0⟩
  obtain ⟨view, htracks, hadmits, hfits⟩ := hf.exists_view T
  exact ⟨⟨view, htracks, hadmits.shaped, hfits.operands⟩,
    fun _ _ ht => hfits.holds_local T hadmits.locals ht⟩

end Reached

def threeAndSeven : ByteArray :=
  ⟨#[0x00, 0x61, 0x73, 0x6D, 0x01, 0x00, 0x00, 0x00,
    -- the types
    0x01, 0x0B, 0x02, 0x60, 0x00, 0x02, 0x7F, 0x7F, 0x60, 0x01, 0x7F, 0x01, 0x7F,
    0x03, 0x03, 0x02, 0x00, 0x01,
    -- the bodies
    0x0A, 0x11, 0x02, 0x06, 0x00, 0x41, 0x03, 0x41, 0x07, 0x0B,
    0x08, 0x00, 0x20, 0x00, 0x10, 0x00, 0x6A, 0x6A, 0x0B]⟩

instance Deciding.existsFrame {r : StepResult} {p : Store → Frame → List Activation → Nat → Prop}
    [∀ s f callers room, Decidable (p s f callers room)] : Decidable (∃ s f callers room,
      r = .next s ⟨.frame f, callers, room⟩ ∧ p s f callers room) :=
  match r with
  | .next s ⟨.frame f, callers, room⟩ => decidable_of_iff (p s f callers room)
      ⟨fun h => ⟨s, f, callers, room, rfl, h⟩, by rintro ⟨_, _, _, _, ⟨⟩, h⟩; exact h⟩
  | .next _ ⟨.host .., _, _⟩ | .done .. => .isFalse (by rintro ⟨_, _, _, _, ⟨⟩, -⟩)

/-- Behind a call both results stand in one value. -/
theorem Reached.type_sound_threeAndSeven :
    ∃ (s : Store) (f : Frame) (callers : List Activation) (room : Nat),
      Reached s (some ⟨.frame f, callers, room⟩) ∧ f.pc = 2 ∧
      f.operands = [.bundle [.i32 3, .i32 7], .i32 5] ∧
      (∀ T : Translation f.inst.module f.func, ∃ view, T.Tracks 2 view ∧
        view.operands = [.bundle [.i32, .i32], .one .i32]) ∧
      ∃ op, f.func.code[2]? = some op ∧ op.Ready s f := by
  have hrun : ∃ m, Module.compile .standard threeAndSeven = .ok m ∧
      ∃ made, Store.empty.allocate m [] 16 = .ok made ∧
      ∃ u s, made.1.applySegments made.2.2 = .ok u s ∧
      s.funcType? ⟨1⟩ = some ⟨[.i32], [.i32]⟩ ∧
      ∃ s' f callers room,
        (Machine.call s ⟨1⟩ [.i32 5] [] 16).after 6 = .next s' ⟨.frame f, callers, room⟩ ∧
        f.pc = 2 ∧ f.operands = [.bundle [.i32 3, .i32 7], .i32 5] := by
    decide +kernel
  obtain ⟨m, hm, ⟨inst, home, s1⟩, ha, ⟨⟩, s, hs, htype, s', f, callers, room, hafter, hpc,
    hoperands⟩ := hrun
  have hplaced := Reached.empty.next (.act trivial (.place hm ha hs))
  have hargs : argumentError? [.i32] [.i32 5] = none := rfl
  have hreached := (hplaced.next (.call htype hargs 16)).after 6
  rw [hafter] at hreached
  obtain ⟨-, -, -, htracked, hready⟩ := hreached.type_sound
  rw [hpc] at htracked hready
  refine ⟨s', f, callers, room, hreached, hpc, hoperands, fun T => ?_, hready⟩
  obtain ⟨⟨view, htracks, -, hvalues⟩, -⟩ := htracked T
  rw [hoperands] at hvalues
  exact ⟨view, htracks, Values.unique hvalues (.cons ⟨_, rfl, rfl⟩ (.cons rfl .nil))⟩

end Wasm
