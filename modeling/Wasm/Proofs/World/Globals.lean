import Wasm.Proofs.Typed.Soundness
import Wasm.Session

/-! # Globals keep their types, and constants their values

What frames write is of the global's type, and nobody writes to a constant. -/

namespace Wasm

open Relation (ReflTransGen)

variable {s s' : Store} {m : Module} {addr : GlobalAddr} {makes : GlobalInst → Prop}

def Store.KeepsGlobal (s s' : Store) (addr : GlobalAddr) (g : GlobalInst) : Prop :=
  s.globals[addr.index]? = some g → ∃ value, s'.globals[addr.index]? = some { g with value } ∧
    (g.type.mutable = false → value = g.value)

namespace Store

variable {s'' s1 s2 : Store} {bindings : List Binding} {limit : Nat} {inst : Instance}
  {home : InstanceAddr} {g : GlobalInst}

theorem KeepsGlobal.of_eq (h : s.globals[addr.index]? = some g → s'.globals[addr.index]? = some g) :
    s.KeepsGlobal s' addr g :=
  fun hg => ⟨g.value, h hg, fun _ => rfl⟩

theorem KeepsGlobal.trans (h : ∀ g, s.KeepsGlobal s' addr g) (h' : ∀ g, s'.KeepsGlobal s'' addr g)
    (g : GlobalInst) : s.KeepsGlobal s'' addr g := by
  intro hg
  obtain ⟨value, hg', hconst⟩ := h g hg
  obtain ⟨value', hg'', hconst'⟩ := h' _ hg'
  exact ⟨value', hg'', fun hm => (hconst' hm).trans (hconst hm)⟩

theorem keepsGlobal_setGlobal {target : GlobalAddr} {value : Value}
    (h : ∀ g, s.globals[target.index]? = some g → g.type.mutable = true) :
    s.KeepsGlobal (s.setGlobal target value) addr g := by
  intro hg
  rw [setGlobal, Array.getElem?_modify, hg]
  by_cases heq : target.index = addr.index
  · rw [if_pos heq]
    rw [← heq] at hg
    refine ⟨value, rfl, fun hm => ?_⟩
    rw [h g hg] at hm
    cases hm
  · rw [if_neg heq]
    exact ⟨g.value, rfl, fun _ => rfl⟩

/-! ## What the host does -/

/-- **The host does not write to constants.** -/
theorem Act.keepsGlobal {strict : Prop} (h : s.Act strict makes s') : s.KeepsGlobal s' addr g := by
  cases h with
  | addFunc | addMemory | addTable | clearTrace | forget => exact .of_eq id
  | addGlobal =>
    refine .of_eq fun hg => ?_
    rw [Store.addGlobal, Array.push_eq_append]
    exact getElem?_append_some hg
  | onMemory hop hx =>
    have hsame : s'.globals = s.globals :=
      (settles_onMemory (R := fun s s' => s'.globals = s.globals) hop.settles fun _ _ => rfl).ok hx
    exact .of_eq fun hg => hsame ▸ hg
  | onTable hop hx =>
    have hsame : s'.globals = s.globals :=
      (settles_onTable (R := fun s s' => s'.globals = s.globals) hop.settles fun _ _ => rfl).ok hx
    exact .of_eq fun hg => hsame ▸ hg
  | setGlobal hg hm hv =>
    refine keepsGlobal_setGlobal fun g' hg' => ?_
    cases hg.symm.trans hg'
    exact hm
  | place _ ha hs =>
    obtain ⟨hfirst, hrest⟩ := filled_of_applySegments ha
    rw [hs] at hrest
    obtain ⟨segments, hfilled⟩ := hrest
    exact .of_eq fun hg => hfilled.globals addr g (hfirst.globals addr g hg)
  | fail _ _ ha hs =>
    obtain ⟨hfirst, hrest⟩ := filled_of_applySegments ha
    rw [hs] at hrest
    obtain ⟨segments, hfilled⟩ := hrest
    exact .of_eq fun hg => hfilled.globals addr g (hfirst.globals addr g hg)

end Store

/-! ## What code does -/

theorem Module.inRange_of_compile {options : CompileOptions} {binary : ByteArray}
    (h : Module.compile options binary = .ok m) {func : CompiledFunction}
    (hf : func ∈ m.functions) {op : BasicOp} {pc : Nat} (hop : func.code[pc]? = some (.basic op)) :
    op.InRange m func.frameSlots := by
  obtain ⟨contents, hwritten, hvalid, rfl⟩ := Contents.exists_of_compile h
  exact ((hvalid.closed hwritten).functions func hf).ops op (Array.mem_of_getElem? hop)

theorem Frame.Changes.keepsGlobal {f : Frame} (h : f.Changes s s') (hf : f.Resident False s)
    {g : GlobalInst} : s.KeepsGlobal s' addr g := by
  obtain ⟨op, hop, hby⟩ := h
  cases hby with
  | none | memory | table | dropElem | dropData => exact .of_eq id
  | @global ref target value hset htarget =>
    -- the module declares the global mutable, and so it is behind the index
    subst hset
    obtain ⟨options, binary, hcompile⟩ := hf.compiled
    obtain ⟨type, htype, hm⟩ := Module.inRange_of_compile hcompile hf.function hop
    obtain ⟨target', htarget', hplaced⟩ := hf.housed.global htype
    cases htarget.symm.trans htarget'
    refine Store.keepsGlobal_setGlobal fun g' hg' => ?_
    rw [Store.globalType?, Array.getElem?_map, hg'] at hplaced
    cases hplaced
    exact hm

/-! ## What happens -/

namespace World

variable {w w' : World}

theorem Next.keepsGlobal (h : Next False GlobalInst.Typed w w')
    (hw : Coherent False w.store w.running) {g : GlobalInst} :
    w.store.KeepsGlobal w'.store addr g := by
  cases h with
  | act _ ha => exact ha.keepsGlobal
  | turn => exact .of_eq id
  | @call s func type args _ _ depth =>
    rw [Machine.store_call]
    exact .of_eq id
  | @step s mc hmc =>
    have halters := mc.step_alters s
    have hmachine := hw.machine mc rfl
    generalize (mc.step s).store = s' at halters
    cases halters with
    | none | report => exact .of_eq id
    | change => cases hmc
    | frame hchanges => exact hchanges.keepsGlobal hmachine.1.resident

theorem Later.keepsGlobal (h : Later GlobalInst.Typed w w') (hw : Reachable GlobalInst.Typed w)
    (addr : GlobalAddr) (g : GlobalInst) : w.store.KeepsGlobal w'.store addr g := by
  induction h generalizing g with
  | refl => exact .of_eq id
  | tail hfirst hlast ih =>
    exact Store.KeepsGlobal.trans ih
      (fun _ => hlast.keepsGlobal (coherent (ReflTransGen.trans hw hfirst))) g

theorem later_globalSet {σ σ' : Session} {running : Option Machine} (hout : Outside running)
    {name : String} {value : Value} {allowed : Bool}
    (h : Session.globalSet name value σ = .ok allowed σ') :
    Later makes ⟨σ.store, running⟩ ⟨σ'.store, running⟩ := by
  rw [Session.globalSet, bind_of_ok (get_apply σ)] at h
  obtain ⟨addr, σ1, hfind, hrest⟩ := bind_eq_ok.mp h
  obtain ⟨g, σ2, hglobal, hset⟩ := bind_eq_ok.mp hrest
  rw [Session.find] at hfind
  cases hname : σ.globals.lookup name with
  | none =>
    rw [hname] at hfind
    cases hfind
  | some addr' =>
    rw [hname] at hfind
    cases hfind
    rw [Session.globalOf, bind_of_ok (get_apply σ), Session.find, hname] at hglobal
    rw [bind_of_ok (pure_apply addr σ), bind_of_ok (get_apply σ)] at hglobal
    cases hg : σ.store.globals[addr.index]? with
    | none =>
      rw [hg] at hglobal
      cases hglobal
    | some g' =>
      rw [hg] at hglobal
      cases hglobal
      by_cases hallowed : g.type.mutable = true ∧ value.type? = some g.type.content
      · rw [if_pos hallowed] at hset
        cases hset
        exact .single (.act hout (.setGlobal hg hallowed.1 hallowed.2))
      · rw [if_neg hallowed] at hset
        cases hset
        exact .refl

/-- **Globals keep their types, and constants their values**, with any number of instances that
    share them and whatever the host does. -/
theorem globals_keep (hw : Reachable GlobalInst.Typed w) (hlater : Later GlobalInst.Typed w w') :
    (∀ g ∈ w'.store.globals, g.value.type? = some g.type.content) ∧
    (∀ (addr : GlobalAddr) (g : GlobalInst), w.store.globals[addr.index]? = some g →
      ∃ value, w'.store.globals[addr.index]? = some { g with value } ∧
        (g.type.mutable = false → value = g.value)) ∧
    (∀ (home : InstanceAddr) (inst : Instance), w.store.instance? home = some inst →
      ∀ (index : Nat) (type : GlobalType), inst.module.spaces.globals[index]? = some type →
        ∃ addr g value, inst.global? (inst.module.spaces.globalRef index) = some addr ∧
          w.store.globals[addr.index]? = some g ∧ g.type = type ∧
          w'.store.globals[addr.index]? = some { g with value } ∧
          value.type? = some type.content ∧ (type.mutable = false → value = g.value)) ∧
    ∀ (σ σ' : Session) (name : String) (value : Value) (allowed : Bool), σ.store = w'.store →
      Outside w'.running → Session.globalSet name value σ = .ok allowed σ' →
      Later GlobalInst.Typed w' ⟨σ'.store, w'.running⟩ := by
  have htyped := (coherent (ReflTransGen.trans hw hlater)).store.typed.globals
  refine ⟨htyped, fun addr g => hlater.keepsGlobal hw addr g, ?_, ?_⟩
  · intro home inst hinst index type htype
    obtain ⟨binaries, hhosts⟩ := (coherent hw).store.hosts
    obtain ⟨addr, haddr, hglobal⟩ := (hhosts.placed home inst hinst).globals index type htype
    rw [Store.globalType?, Array.getElem?_map, Option.map_eq_some_iff] at hglobal
    obtain ⟨g, hg, rfl⟩ := hglobal
    obtain ⟨value, hg', hconst⟩ := hlater.keepsGlobal hw addr g hg
    exact ⟨addr, g, value, haddr, hg, rfl, hg', htyped _ (Array.mem_of_getElem? hg'), hconst⟩
  · intro σ σ' name value allowed hstore hout hset
    have hlater' : Later GlobalInst.Typed ⟨σ.store, w'.running⟩ ⟨σ'.store, w'.running⟩ :=
      later_globalSet hout hset
    rwa [hstore] at hlater'

def sevenAndFive : ByteArray :=
  ⟨#[0x00, 0x61, 0x73, 0x6D, 0x01, 0x00, 0x00, 0x00,
    0x06, 0x0B, 0x02, 0x7F, 0x00, 0x41, 0x07, 0x0B, 0x7F, 0x01, 0x41, 0x05, 0x0B]⟩

/-- Whatever happens, the constant is 7 and the variable a word. -/
theorem globals_keep_sevenAndFive : ∃ (m : Module) (s : Store),
    Module.compile .standard sevenAndFive = .ok m ∧
    Store.empty.instantiate 0 m [] 16 = (.ok ⟨0⟩, s) ∧
    Later GlobalInst.Typed ⟨s, none⟩ ⟨s.setGlobal ⟨1⟩ (.i32 9), none⟩ ∧
    ∀ w : World, Later GlobalInst.Typed ⟨s.setGlobal ⟨1⟩ (.i32 9), none⟩ w →
      (∃ g, w.store.globals[0]? = some g ∧ g.value = .i32 7) ∧
      ∃ g word, w.store.globals[1]? = some g ∧ g.value = .i32 word := by
  have hrun : ∃ m, Module.compile .standard sevenAndFive = .ok m ∧
      ∃ s, Store.empty.instantiate 0 m [] 16 = (.ok ⟨0⟩, s) ∧
      ∃ g, s.globals[0]? = some g ∧ ∃ g', s.globals[1]? = some g' ∧
        g.type = ⟨.i32, false⟩ ∧ g.value = .i32 7 ∧ g'.type = ⟨.i32, true⟩ := by
    decide +kernel
  obtain ⟨m, hm, s, hi, g, hg, g', hg', htype, hvalue, htype'⟩ := hrun
  have hw : Reachable GlobalInst.Typed ⟨s, none⟩ := later_instantiate hm hi (by simp)
  have hset : Later GlobalInst.Typed ⟨s, none⟩ ⟨s.setGlobal ⟨1⟩ (.i32 9), none⟩ :=
    .single (.act trivial (.setGlobal hg' (by rw [htype']) (by rw [htype']; rfl)))
  refine ⟨m, s, hm, hi, hset, fun w hlater => ?_⟩
  obtain ⟨htyped, hkeep, -⟩ := globals_keep hw (hset.trans hlater)
  obtain ⟨value, hg1, hconst⟩ := hkeep ⟨0⟩ _ hg
  obtain ⟨value', hg1', -⟩ := hkeep ⟨1⟩ g' hg'
  refine ⟨⟨_, hg1, (hconst (by rw [htype])).trans hvalue⟩, ?_⟩
  have hword := htyped _ (Array.mem_of_getElem? hg1')
  dsimp only at hword
  rw [htype'] at hword
  cases value' with
  | i32 word => exact ⟨_, word, hg1', rfl⟩
  | _ => cases hword

end World

end Wasm
