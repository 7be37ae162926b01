import Wasm.Proofs.Lowering.Accessors
import Wasm.Proofs.Module.Relocation

/-! # Modules compiled with accessors and without

Bodies lowered in both ways stay in step (`CodeRelation.respected_inlining`). -/

namespace Wasm

open List

/-! ## Function bodies -/

theorem Instr.check_useAccessors (ctx : BodyContext) (u : Bool) (n : Nat) (i : Instr) :
    i.check { ctx with useAccessors := u } n = i.check ctx n := by
  cases i <;> rfl

def CompiledFunction.Routed (accessors : Accessors) (f : CompiledFunction) : Prop :=
  ∀ op, .basic op ∈ f.code → op.Routed accessors

def CompiledFunction.inline (accessors : Accessors) (f : CompiledFunction) : CompiledFunction :=
  f.mapBasic (·.inline accessors)

/-- A function with accessors, and without. -/
structure CompiledFunction.Inlines (accessors : Accessors) (f f0 : CompiledFunction) : Prop where
  inlined : ∀ a : Accessors, accessors.keys.toList <+: a.keys.toList → f.inline a = f0
  routed : f.Routed accessors

theorem CompiledFunction.Routed.mono {a b : Accessors} {f : CompiledFunction} (h : f.Routed a)
    (hab : a.keys.toList <+: b.keys.toList) : f.Routed b :=
  fun op hop => (h op hop).mono hab

namespace Emission.Inlines

variable {e e0 : Emission}

section

variable (h : e.Inlines e0)
include h

theorem emission_self : (Recast.inlining e.accessors).emission e = e0 :=
  h.inlined e.accessors prefix_rfl

theorem labels : e0.asm.labels = e.asm.labels := by
  rw [← h.emission_self]
  exact Recast.labels_eq _ rfl _

theorem nextSlot : e0.nextSlot = e.nextSlot := by
  rw [← h.emission_self]
  rfl

theorem accessors : e0.accessors = .empty := by
  rw [← h.emission_self]
  rfl

theorem finish {slots : Nat} {f : CompiledFunction} (hfinish : e.asm.finish slots = .ok f) :
    ∃ f0, e0.asm.finish slots = .ok f0 ∧ f.Inlines e.accessors f0 := by
  have hmap : ∀ a : Accessors, e.accessors.keys.toList <+: a.keys.toList →
      e0.asm.finish slots = .ok (f.inline a) := by
    intro a ha
    rw [← h.inlined a ha]
    exact ((Recast.inlining a).finish h.made slots).trans (by rw [hfinish]; rfl)
  refine ⟨f.inline e.accessors, hmap _ prefix_rfl, fun a ha => ?_, fun op hop => ?_⟩
  · exact Except.ok.inj ((hmap a ha).symm.trans (hmap _ prefix_rfl))
  · rw [(Assembly.link_eq_ok.mp (Assembly.finish_eq_ok hfinish).2.2.2).2] at hop
    exact h.routed op (Op.basic_mem_relabel hop)

end

theorem start (funcIndex : Nat) (type : FuncType) (locals : Array LocalSlot) (nextSlot : Nat)
    (accessors : Accessors) (refs refs' : Array (Nat × Nat)) :
    (BodyState.start funcIndex type locals nextSlot accessors refs).emission.Inlines
      (BodyState.start funcIndex type locals nextSlot .empty refs').emission where
  made := Nat.one_pos
  inlined a _ := by
    have hcode : (#[] : Array (Op Label)).map (Recast.inlining a).ops = #[] := Array.map_empty
    exact congrArg (fun code => Emission.mk ⟨funcIndex, type, locals, code, #[none]⟩ .empty
      nextSlot []) hcode
  routed op hop := nomatch hop

theorem inStep {ctx : BodyContext} (hctx : ctx.useAccessors = true) (accessors : Accessors) :
    InStep ctx { ctx with useAccessors := false }
      fun e e0 => e.Inlines e0 ∧ accessors.keys.toList <+: e.accessors.keys.toList where
  check i n := i.check_useAccessors ctx false n
  dataCount := rfl
  labels h := h.1.labels
  emit h stack i := ⟨h.1.emit hctx stack i, h.2.trans (i.heads_emit ctx stack _).keys⟩

end Emission.Inlines

namespace CodeRelation

def inlining : CodeRelation := fun functions accessors functions0 accessors0 =>
  accessors0 = .empty ∧ (∀ a : Accessors, accessors.keys.toList <+: a.keys.toList →
      functions.map (·.inline a) = functions0) ∧
    ∀ f ∈ functions, f.Routed accessors

theorem respected_inlining {options : CompileOptions} (hopt : options.accessors = true) :
    inlining.Respected options { options with accessors := false } where
  size := by
    rintro functions accessors functions0 accessors0 ⟨-, hinlined, -⟩
    rw [← hinlined _ prefix_rfl, Array.size_map]
  body := by
    rintro functions accessors functions0 accessors0 ⟨rfl, hinlined, hrouted⟩ ctx hctx funcIndex
    intro R Q shift refs refs' hQ hrefs
    refine Decode.relocates_body hQ
      (E := fun e e0 => e.Inlines e0 ∧ accessors.keys.toList <+: e.accessors.keys.toList)
      (T := fun f a f0 a0 => inlining (functions.push f) a (functions0.push f0) a0)
      (fun locals => @Emission.Inlines.inStep { ctx with locals } (hctx.trans hopt) accessors)
      funcIndex hrefs (fun _ _ _ => ⟨.start _ _ _ _ _ _ _, prefix_rfl⟩) ?_
    rintro e e0 f ⟨he, hkeys⟩ hf
    obtain ⟨f0, hf0, hinlines⟩ := he.finish hf
    refine ⟨f0, he.nextSlot ▸ hf0, he.accessors, fun a ha => ?_, fun g hg => ?_⟩
    · rw [Array.map_push, hinlines.inlined a ha, hinlined a (hkeys.trans ha)]
    · rcases Array.mem_push.mp hg with hg | rfl
      · exact (hrouted g hg).mono hkeys
      · exact hinlines.routed

end CodeRelation

/-! ## Modules -/

/-- The second has the access in place of an accessor. -/
def Op.Routes (accessors : Accessors) (op op0 : Op Nat) : Prop :=
  match op0 with
  | .basic (.load access memory offset) =>
    if (memory, offset) = (0, 0) then op = op0
    else ∃ id, op = .basic (.loadVia id) ∧
      accessors.get? id = some ⟨.load access, memory, offset⟩
  | .basic (.store access memory offset) =>
    if (memory, offset) = (0, 0) then op = op0
    else ∃ id, op = .basic (.storeVia id) ∧
      accessors.get? id = some ⟨.store access, memory, offset⟩
  | .basic (.loadVia _) | .basic (.storeVia _) => False
  | _ => op = op0

theorem Op.routes_inline {accessors : Accessors} {op : Op Nat}
    (h : ∀ b, op = .basic b → b.Routed accessors) :
    op.Routes accessors (op.mapBasic (·.inline accessors)) := by
  cases op with
  | basic b =>
    have hb := h b rfl
    cases b with
    | load access memory offset | store access memory offset =>
      obtain ⟨rfl, rfl⟩ := hb
      exact rfl
    | loadVia id | storeVia id =>
      obtain ⟨access, memory, offset, hid, hne⟩ := hb
      rw [mapBasic, BasicOp.inline, hid]
      refine (if_neg fun heq => hne (Prod.mk.inj heq)).mpr ⟨id, rfl, hid⟩
    | _ => exact rfl
  | _ => exact rfl

/-- The second has accesses in place of accessors. -/
structure CompiledFunction.Routes (accessors : Accessors) (f f0 : CompiledFunction) : Prop where
  rest : { f with code := f0.code } = f0
  length : f0.code.size = f.code.size
  code : ∀ (place : Nat) (op op0 : Op Nat), f.code[place]? = some op → f0.code[place]? = some op0 →
    op.Routes accessors op0

theorem CompiledFunction.routes_inline {accessors : Accessors} {f : CompiledFunction}
    (h : f.Routed accessors) : f.Routes accessors (f.inline accessors) where
  rest := rfl
  length := Array.size_map
  code place op op0 hop hop0 := by
    have hmap : (f.inline accessors).code[place]? =
        (f.code[place]?).map (Op.mapBasic (·.inline accessors)) := Array.getElem?_map
    rw [hmap, hop] at hop0
    cases hop0
    exact Op.routes_inline fun b hb => h b (hb ▸ Array.mem_of_getElem? hop)

namespace Module

def inlined (m : Module) : Module :=
  { m with functions := m.functions.map (·.inline m.accessors), accessors := .empty }

/-- The second has accesses in place of accessors. -/
structure Routes (m m0 : Module) : Prop where
  rest : { m with functions := m0.functions, accessors := .empty } = m0
  count : m0.functions.size = m.functions.size
  functions : ∀ (index : Nat) (f f0 : CompiledFunction), m.functions[index]? = some f →
    m0.functions[index]? = some f0 → f.Routes m.accessors f0

variable {m : Module}

theorem routes_inlined (h : ∀ f ∈ m.functions, f.Routed m.accessors) : m.Routes m.inlined where
  rest := rfl
  count := Array.size_map
  functions index f f0 hf hf0 := by
    have hmap : m.inlined.functions[index]? =
        (m.functions[index]?).map (·.inline m.accessors) := Array.getElem?_map
    rw [hmap, hf] at hf0
    cases hf0
    exact CompiledFunction.routes_inline (h f (Array.mem_of_getElem? hf))

theorem inlined_idem : m.inlined.inlined = m.inlined := by
  have hfunc : ∀ f : CompiledFunction, f.inline .empty = f := by
    intro f
    have hop : (BasicOp.inline .empty) = id := by
      funext op
      cases op <;> rfl
    exact (congrArg f.mapBasic hop).trans f.mapBasic_id
  show { m.inlined with functions := m.inlined.functions.map (CompiledFunction.inline .empty) } = _
  rw [funext hfunc, Array.map_id']

theorem compile_inlines (options : CompileOptions) (hopt : options.accessors = true)
    (binary : ByteArray) :
    (∃ m, compile options binary = .ok m ∧
        compile { options with accessors := false } binary = .ok m.inlined ∧
        ∀ f ∈ m.functions, f.Routed m.accessors) ∨
      ∃ e, compile options binary = .error e ∧
        compile { options with accessors := false } binary = .error e := by
  have hempty : (Draft.empty options).Relocated .inlining Eq
      (.empty { options with accessors := false }) :=
    ⟨#[], .empty, #[], ⟨rfl, fun _ _ => Array.map_empty, fun _ hf => nomatch hf⟩, .nil, rfl⟩
  have hstart : (Cursor.ofBytes binary 0).Relocated Eq 0 (.ofBytes binary 0) :=
    ⟨rfl, rfl, fun _ _ _ => rfl⟩
  unfold compile
  obtain ⟨m, m0, c, c', hm, hm0, ⟨_, _, ⟨rfl, hinlined, hrouted⟩, rfl⟩, -⟩ |
      ⟨e, e0, c, c', he, he0, hfault, hoffset, -⟩ :=
    (Decode.relocates_module (CodeRelation.respected_inlining hopt) hempty _ _ hstart).elim
  · rw [hm, hm0]
    refine .inl ⟨m, rfl, ?_, hrouted⟩
    rw [← hinlined _ prefix_rfl]
    rfl
  · rw [he, he0]
    refine .inr ⟨e, rfl, congrArg Except.error ?_⟩
    obtain ⟨fault, offset⟩ := e
    obtain ⟨fault0, offset0⟩ := e0
    exact congr (congrArg CompileError.mk hfault) hoffset.symm

end Module

end Wasm
