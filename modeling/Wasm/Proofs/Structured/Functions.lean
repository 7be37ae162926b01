import Wasm.Proofs.Structured.Simulation
import Wasm.Proofs.Validation.Body

/-! # The machine follows functions

From the new frame to the delivery of the results (`Site.Runs.follows_body`). -/

namespace Wasm

open List
open Assembly (place)
open Machine (Leads LeadsOn Lasts)
open LocalSlot (layout layoutFrom width)

variable {slot steps : Nat} {args vs : List Value} {slots : Array Value} {body : Body}
  {type : FuncType}

/-! ## The locals of a new frame -/

theorem Frame.getElem?_fillLocals_of_lt {k : Nat} (h : k < slot) (ts : List ValueType)
    (args : List Value) (slots : Array Value) :
    (fillLocals (layoutFrom slot ts) args slots)[k]? = slots[k]? := by
  induction ts generalizing slot args slots with
  | nil => cases args <;> rfl
  | cons t ts ih =>
    rw [layoutFrom]
    cases args with
    | nil | cons arg args =>
      rw [fillLocals, ih (by omega), Array.getElem?_setIfInBounds_ne (Nat.ne_of_gt h)]

theorem Frame.size_fillLocals (entries : List LocalSlot) (args : List Value) (slots : Array Value) :
    (fillLocals entries args slots).size = slots.size := by
  induction entries generalizing args slots with
  | nil => cases args <;> rfl
  | cons entry entries ih =>
    cases args with
    | nil | cons arg args => rw [fillLocals, ih, Array.size_setIfInBounds]

theorem Frame.getElem?_fillLocals {i : Nat} {ts : List ValueType} {entry : LocalSlot}
    (hroom : slot + width ts ≤ slots.size) (h : (layoutFrom slot ts)[i]? = some entry) :
    (fillLocals (layoutFrom slot ts) args slots)[entry.slot]? =
      (args ++ (ts.drop args.length).map Value.zero)[i]? := by
  induction ts generalizing slot i args slots with
  | nil => cases h
  | cons t ts ih =>
    rw [width] at hroom
    have hslot : slot < slots.size := by
      have := t.slotWidth_pos
      omega
    rw [layoutFrom] at h ⊢
    cases i with
    | zero =>
      cases h
      have hlt : slot < slot + t.slotWidth := Nat.lt_add_of_pos_right t.slotWidth_pos
      cases args with
      | nil | cons arg args =>
        rw [fillLocals, getElem?_fillLocals_of_lt hlt,
          Array.getElem?_setIfInBounds_self_of_lt hslot]
        rfl
    | succ i =>
      have hroom' : ∀ v, slot + t.slotWidth + width ts ≤ (slots.setIfInBounds slot v).size := by
        intro v
        rw [Array.size_setIfInBounds]
        omega
      cases args with
      | nil =>
        rw [fillLocals, @ih (slot + t.slotWidth) [] _ i (hroom' _) h]
        rfl
      | cons arg args =>
        rw [fillLocals, @ih (slot + t.slotWidth) args _ i (hroom' _) h]
        rfl

/-! ## The site of a compiled function -/

/-- A function whose code is laid out up to `stop`. -/
structure Site.Runs (site : Site) (body : Body) (type : FuncType) (sc : Scope) (stop : Nat) :
    Prop where
  types : site.types = body.localTypes type.params
  type_eq : site.func.type = type
  func_locals : site.func.locals = layout site.types
  laid : body.code.Laid site.ctx (width site.types) site.fin [] (Scope.function type.results) 0 sc
    stop
  results : sc.unreachable = false → sc.operands = (known type.results).reverse
  label : place site.fin.asm.labels ⟨0⟩ = stop
  epilogue : site.fin.CodeAt stop (Emission.epilogueOps type.results)

theorem Body.Compiles.exists_site {ctx : BodyContext} {funcIndex : Nat}
    {accessors accessors' : Accessors} {func : CompiledFunction} {inst : Instance}
    (h : body.Compiles ctx funcIndex accessors func accessors')
    (hspaces : ctx.spaces = inst.module.spaces)
    (hkeys : accessors'.keys.toList <+: inst.module.accessors.keys.toList)
    (htype : ctx.spaces.funcType funcIndex = .ok type) :
    ∃ (site : Site) (sc : Scope) (stop : Nat), site.inst = inst ∧ site.func = func ∧
      site.Runs body type sc stop := by
  cases h with
  | @intro type' sc e _ ht hmax hl hc hf =>
    cases ht.symm.trans htype
    obtain ⟨hftype, hflocals, hfslots, hflink⟩ := Assembly.finish_eq_ok hf
    have hx := hl.emission_extends
    have hlive : (Scope.function type.results).Live :=
      ⟨rfl, rfl, fun _ ho => nomatch ho⟩
    have hdead : sc.dead = false := hl.dead_eq
    have hkind : sc.kind = .function := hl.kind_eq
    have hheads := hx.heads.trans (sc.heads_emitEnd e)
    have hcode : (sc.emitEnd e).asm.code =
        e.asm.code ++ (Emission.epilogueOps type.results).toArray := by
      rw [sc.emitEnd_eq e hdead, if_pos hkind, Emission.code_epilogue, sc.code_bindLabels,
        hl.results_eq]
      rfl
    have hp : (Scope.function type.results).Pending
        (Emission.start funcIndex type (body.localTypes type.params) accessors).asm.labels :=
      ⟨rfl, fun label hl => by cases hl⟩
    obtain ⟨hkept, hlabel, -⟩ := hl.kept_emitEnd hp rfl (.refl _)
    let site : Site :=
      { inst, func, ctx := body.context ctx type.params, types := body.localTypes type.params
        fin := sc.emitEnd e
        link := hflink
        frameSlots := hfslots
        spaces := hspaces
        keys := hkeys
        locals := rfl
        width_le := hheads.nextSlot }
    refine ⟨site, sc, e.asm.code.size, rfl, rfl, ?_⟩
    exact
      { types := rfl
        type_eq := hftype.trans hheads.header.2.1
        func_locals := hflocals.trans hheads.header.2.2
        laid := hl.laid (forall_mem_singleton.mpr hlive) hkept (Scratch.separate_nil _)
        results := hl.holds_results hlive hc
        label := hlabel
        epilogue := .of_heads (Emission.Extends.refl _).heads hcode }

/-! ## From the frame to the results -/

theorem packResults_of_two_le (h : 2 ≤ vs.length) : packResults vs = [.bundle vs] :=
  match vs, h with
  | _ :: _ :: _, _ => rfl

namespace Site

open Structured

variable {site : Site} {sc : Scope} {stop : Nat}

theorem Runs.mirrors_enter (h : site.Runs body type sc stop)
    (hargs : args.length = type.params.length) :
    MirrorsWith site [] 0 0 (enter site.inst body args) (.enter site.inst site.func args) := by
  have hdrop : (body.localTypes type.params).drop args.length = LocalGroup.types body.groups := by
    rw [Body.localTypes, hargs, drop_left]
  have hstores : site.Stores (args ++ (LocalGroup.types body.groups).map Value.zero).toArray
      (Frame.fillLocals site.func.locals.toList args
        (Array.replicate site.func.frameSlots (.i32 0))) := by
    refine ⟨?_, ?_, fun i entry hi => ?_⟩
    · rw [size_toArray, length_append, length_map, h.types, Body.localTypes, length_append, hargs]
    · rw [Frame.size_fillLocals, Array.size_replicate, site.frameSlots]
    · rw [site.locals, layout, getElem?_toArray] at hi
      rw [h.func_locals, ← hdrop, ← h.types]
      refine (Frame.getElem?_fillLocals ?_ hi).trans getElem?_toArray.symm
      rw [Array.size_replicate, site.frameSlots, Nat.zero_add]
      exact site.width_le
  exact ⟨.intro hstores, rfl⟩

variable {callers : List Activation} {room : Nat} {s : Store}

variable (h : site.Runs body type sc stop)
include h

theorem Runs.leads_epilogue (hlen : vs.length = type.results.length) :
    Leads (site.state s callers room stop slots vs)
      (Machine.deliver s (packResults vs.reverse) callers (room + 1)) := by
  have hcode := h.epilogue
  have hret : ∀ pc ops, site.fin.asm.code[pc]? = some (.basic .ret) →
      Leads (site.state s callers room pc slots ops)
        (Machine.deliver s (if type.results = [] then [] else ops.take 1) callers (room + 1)) := by
    intro pc ops hop
    have hresult : (site.frame (pc + 1) slots ops).result =
        if type.results = [] then [] else ops.take 1 := by
      rw [Frame.result, show (site.frame (pc + 1) slots ops).func.type = type from h.type_eq]
      cases type.results with
      | nil | cons => rfl
    refine Leads.step ?_
    rw [Machine.step, Spot.step_eq hop, ← hresult]
    rfl
  obtain ⟨params, results⟩ := type
  rcases vs with _ | ⟨u, _ | ⟨v, vs⟩⟩ <;> rcases results with _ | ⟨t1, _ | ⟨t2, ts⟩⟩ <;>
    try cases hlen
  · exact hret stop [] hcode.cons.1
  · exact hret stop [u] hcode.cons.1
  · obtain ⟨hpack, hmore⟩ := hcode.cons
    obtain ⟨hop, -⟩ := hmore.cons
    have hexec : BasicOp.exec (site.frame (stop + 1) slots (u :: v :: vs))
        (.pack ⟨t1 :: t2 :: ts⟩) s =
        .ok (.next (site.frame (stop + 1) slots [.bundle (u :: v :: vs).reverse])) s := by
      rw [BasicOp.exec]
      rw [← hlen, take_length, drop_length]
      rfl
    have htwo : 2 ≤ (u :: v :: vs).reverse.length := by
      rw [length_reverse, length_cons, length_cons]
      omega
    rw [packResults_of_two_le htwo]
    exact (Spot.leadsOn_next hpack hexec).leads.trans (hret (stop + 1) _ hop)

theorem Runs.follows_end {M : StepResult} {st : State} {f : Frame}
    (hle : type.results.length ≤ st.operands.length)
    (hf : Mirrors site [] stop (st.holding (st.operands.take type.results.length)) f)
    (hM : Leads M (.next s ⟨.frame f, callers, room⟩)) :
    FollowsCall type callers (room + 1) steps M
      (.ok (st.operands.take type.results.length).reverse s) := by
  have hlen : (st.operands.take type.results.length).length = type.results.length := by
    rw [length_take, Nat.min_eq_left hle]
  refine ⟨by rw [length_reverse, hlen], hM.trans ?_⟩
  generalize hst : st.holding (st.operands.take type.results.length) = st1 at hf
  obtain @⟨values, slots, ops, hs⟩ := hf
  obtain rfl : st.operands.take type.results.length = ops := congrArg State.operands hst
  rw [append_nil]
  exact h.leads_epilogue hlen

theorem Runs.follows_body {call : FuncAddr → List Value → Run (List Value)} {s0 : Store}
    (hcalls : CallsFollow call room steps s0)
    (hkeeps : ∀ func args, Keeps Store.Agrees (call func args)) (hlinked : site.inst.Linked s0)
    (hs : s0.Agrees s) (hargs : args.length = type.params.length) :
    FollowsCall type callers (room + 1) (steps + 1)
      (.next s ⟨.frame (.enter site.inst site.func args), callers, room⟩)
      (returning type.results.length
        (body.code.run call (steps + 1) (enter site.inst body args)) s) := by
  have hlive : Scope.AllLive [Scope.function type.results] :=
    forall_mem_singleton.mpr ⟨rfl, rfl, fun _ ho => nomatch ho⟩
  have hhold : Scope.Hold [] [] := rfl
  have hfollows : Follows ⟨site, callers, room, steps + 1⟩
      ([Scope.function type.results].map Scope.exit) [] _ _
      (body.code.run call (steps + 1) (enter site.inst body args) s) :=
    h.laid.follows hcalls hkeeps (Nat.le_refl _) (Nat.le_refl _) hlinked rfl hlive hhold hs
      (h.mirrors_enter hargs)
  unfold returning
  cases hx : body.code.run call (steps + 1) (enter site.inst body args) s with
  | ok st s' =>
    rw [hx] at hfollows
    obtain ⟨f, ⟨hu, hf, hlen⟩, hlead⟩ := hfollows
    rw [h.results hu, length_reverse, length_known] at hlen
    refine h.follows_end (Nat.le_of_eq hlen.symm) ?_ hlead
    rw [take_of_length_le (Nat.le_of_eq hlen)]
    exact hf
  | error exit s' =>
    rw [hx] at hfollows
    match exit, hfollows with
    | .branch 0 st, ⟨_, _, f, ht, hle, hf, hlead⟩ =>
      cases ht
      exact h.follows_end hle (h.label ▸ hf) hlead.leads
    | .branch (depth + 1) st, ⟨_, _, f, ht, _⟩ => cases ht
    | .ret st, ⟨_, _, f, ht, hle, hf, hlead⟩ =>
      cases ht
      exact h.follows_end hle (h.label ▸ hf) hlead.leads
    | .trap t, hlead => exact hlead
    | .outOfFuel, hlasts => exact hlasts

end Site

end Wasm
