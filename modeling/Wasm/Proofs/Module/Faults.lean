import Wasm.Proofs.Module.Relocation

/-! # Faults of the translator never arise

A fault that is met at two places is one of the binary (`Decode.OnlyRejects`). -/

namespace Wasm

open List

namespace Decode

def OnlyRejects {α : Type} (d : Decode α) : Prop :=
  ∀ c e c', d c = .error e c' → e.fault.isOfBinary = true

theorem relocated_self (c : Cursor) : c.Relocated (fun _ _ => True) 0 c :=
  ⟨rfl, rfl, fun _ _ _ => trivial⟩

theorem yields_instructions {ctx : BodyContext} {funcIndex : Nat} {type : FuncType}
    {locals : Array LocalSlot} {nextSlot : Nat} {accessors : Accessors} {refs : Array (Nat × Nat)}
    {s : BodyState} (fuel : Nat)
    (h : BodyState.Reached ctx (.start funcIndex type locals nextSlot accessors refs) s)
    (hopen : s.stack.scopes ≠ []) (c : Cursor) (s' : BodyState) (c' : Cursor)
    (hread : instructions ctx fuel s c = .ok s' c') :
    BodyState.Reached ctx (.start funcIndex type locals nextSlot accessors refs) s' ∧
      s'.stack.scopes = [] := by
  have hrefs : RefsRelocated (fun _ _ => True) s.dataRefs s.dataRefs :=
    forall₂_same.mpr fun _ _ => ⟨rfl, trivial⟩
  have houtcome := relocates_instructions (fun _ _ h => h) (.same ctx) BodyState.start_ready fuel h
    hopen ⟨rfl, rfl, hrefs⟩ c c (relocated_self c)
  rw [hread] at houtcome
  cases houtcome with
  | ok hs _ => exact hs.2

theorem OnlyRejects.module (options : CompileOptions) : OnlyRejects (Decode.module options) := by
  intro c e c' h
  have houtcome := relocates_module (CodeRelation.respected_same options)
    (Draft.relocated_empty options) c c (relocated_self c)
  rw [h] at houtcome
  cases houtcome with
  | error he => exact he.ofBinary

end Decode

/-- **No binary meets a fault of the translator itself.**  What passes its check is lowered, a body
    that is read to its end is closed, and then its labels are bound exactly once. -/
theorem Module.compile_fault_isOfBinary (options : CompileOptions) (binary : ByteArray) :
    (∀ e, Module.compile options binary = .error e →
      e.fault ≠ .unbalancedControlStack ∧ ∀ what, e.fault ≠ .internal what) ∧
    ∀ (ctx : BodyContext) (funcIndex : Nat) (type : FuncType) (locals : Array LocalSlot)
      (nextSlot : Nat) (accessors : Accessors) (refs : Array (Nat × Nat)) (s : BodyState),
      BodyState.Reached ctx (.start funcIndex type locals nextSlot accessors refs) s →
      (s.stack.scopes ≠ [] → s.stack.base = [] ∧
        (∀ (i : Instr) stack, i.check ctx s.emission.asm.labels.size s.stack = .ok () stack →
          ∃ e, i.lower ctx s.stack s.emission = .ok e) ∧
        (∀ at_ i fault, s.step ctx at_ i = .error fault →
          fault ≠ .unbalancedControlStack ∧ ∀ what, fault ≠ .internal what) ∧
        ∀ fuel c s' c', Decode.instructions ctx fuel s c = .ok s' c' →
          BodyState.Reached ctx (.start funcIndex type locals nextSlot accessors refs) s' ∧
            s'.stack.scopes = []) ∧
      (s.stack.scopes = [] →
        (∃ bound, (Assembly.start funcIndex type locals).Binds bound s.emission.asm ∧
          ∀ op ∈ s.emission.asm.code.toList, ∀ label ∈ op.targets, bound.count label = 1) ∧
        ∃ func, s.emission.asm.finish s.emission.nextSlot = .ok func) := by
  have hfault : ∀ fault : Fault, fault.isOfBinary = true →
      fault ≠ .unbalancedControlStack ∧ ∀ what, fault ≠ .internal what := by
    intro fault h
    constructor
    · rintro rfl
      cases h
    · rintro what rfl
      cases h
  constructor
  · intro e he
    unfold compile at he
    split at he
    · cases he
    · next e' c hmodule =>
        cases he
        exact hfault _ (Decode.OnlyRejects.module options _ _ _ hmodule)
  · intro ctx funcIndex type locals nextSlot accessors refs s hs
    refine ⟨fun hopen => ?_, fun hclosed => ⟨hs.bound_once hclosed, ?_⟩⟩
    · have hr := (hs.ready_or_closed BodyState.start_ready).resolve_right hopen
      refine ⟨hr.open_.1, fun i stack hc => ⟨_, Instr.lower_eq hr hc _⟩,
        fun at_ i fault hf => hfault fault (BodyState.step_rejects hr at_ i fault hf), ?_⟩
      exact fun fuel => Decode.yields_instructions fuel hs hopen
    · obtain ⟨code, hlink⟩ := hs.exists_link hclosed
      unfold Assembly.finish
      rw [hlink]
      exact ⟨_, rfl⟩

def underflow : ByteArray :=
  ⟨#[0x00, 0x61, 0x73, 0x6D, 0x01, 0x00, 0x00, 0x00, 0x01, 0x04, 0x01, 0x60, 0x00, 0x00,
    0x03, 0x02, 0x01, 0x00, 0x0A, 0x05, 0x01, 0x03, 0x00, 0x1A, 0x0B]⟩

/-- A missing operand; and the label of a block, bound once. -/
theorem Module.compile_fault_underflow :
    (∃ e, Module.compile .standard underflow = .error e ∧ e.fault = .stackUnderflow ∧
      e.fault ≠ .unbalancedControlStack) ∧
    ∃ (s : BodyState) (bound : List Label), s.stack.scopes = [] ∧
      s.emission.asm.code.toList = [.jump ⟨1⟩, .basic .ret] ∧
      (Assembly.start 0 .nullary #[]).Binds bound s.emission.asm ∧ bound.count ⟨1⟩ = 1 := by
  have herror : (match Module.compile .standard underflow with
      | .error e => some e.fault
      | .ok _ => none) = some .stackUnderflow := by
    decide +kernel
  constructor
  · split at herror
    · next e he =>
        have h := (compile_fault_isOfBinary .standard underflow).1 e he
        exact ⟨e, he, Option.some.inj herror, h.1⟩
    · cases herror
  · -- the body is `block`, `br 0`, `end`, `end`
    have h0 : BodyState.Reached ⟨.empty, #[], #[], none, true⟩
        (.start 0 .nullary #[] 0 .empty #[]) _ := .refl
    have h1 := h0.step (cons_ne_nil _ _)
      (show BodyState.step _ 0 (.block .empty) _ = .ok _ from rfl)
    have h2 := h1.step (cons_ne_nil _ _) (show BodyState.step _ 0 (.br 0) _ = .ok _ from rfl)
    have h3 := h2.step (cons_ne_nil _ _) (show BodyState.step _ 0 .endScope _ = .ok _ from rfl)
    have h4 := h3.step (cons_ne_nil _ _) (show BodyState.step _ 0 .endScope _ = .ok _ from rfl)
    have h := (compile_fault_isOfBinary .standard underflow).2 _ _ _ _ _ _ _ _ h4
    obtain ⟨bound, hbinds, hcount⟩ := (h.2 rfl).1
    exact ⟨_, bound, rfl, rfl, hbinds, hcount _ mem_cons_self _ mem_cons_self⟩

end Wasm
