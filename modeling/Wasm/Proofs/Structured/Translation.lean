import Wasm.Proofs.Store.Instantiation
import Wasm.Proofs.Structured.Calls

/-! # Translation preserves meaning

The machine and the structured meaning of a function agree (`runFunc_iff_call`). -/

namespace Wasm

open Machine (Leads Takes Lasts)

variable {s s' : Store} {func : FuncAddr} {args values : List Value} {depth : Nat}
  {type : FuncType}

/-! ## Runs of the machine -/

theorem Machine.call_ne_results {room : Nat} :
    call s func args [] room ≠ .done s' (.results values) := by
  unfold call
  repeat' split
  all_goals exact fun h => nomatch h

namespace Store

theorem runFunc_results_iff (ht : s.funcType? func = some type) :
    (∃ fuel, s.runFunc fuel func args depth = (.results values, s')) ↔
      ∃ yielded, Leads (Machine.call s func args [] depth) (.done s' (.results yielded)) ∧
        unpackResults type.results.length yielded = values := by
  have hne {values} := @Machine.call_ne_results s s' func args values depth
  unfold runFunc
  rw [ht]
  cases hcall : Machine.call s func args [] depth with
  | done s1 outcome =>
    constructor
    · rintro ⟨_, h⟩
      cases h
      exact absurd hcall hne
    · rintro ⟨yielded, ⟨n, hn⟩, -⟩
      cases hn
      exact absurd hcall hne
  | next s1 m =>
    dsimp only
    constructor
    · rintro ⟨fuel, h⟩
      split at h
      · next yielded s2 hrun =>
          cases h
          exact ⟨yielded, (Machine.exists_run_iff Outcome.noConfusion).mp ⟨fuel, hrun⟩, rfl⟩
      · next other hother => exact absurd h (hother _ _)
    · rintro ⟨yielded, hleads, rfl⟩
      obtain ⟨fuel, hrun⟩ := (Machine.exists_run_iff Outcome.noConfusion).mpr hleads
      exact ⟨fuel, by rw [hrun]⟩

theorem runFunc_trap_iff {t : Trap} : (∃ fuel, s.runFunc fuel func args depth = (.trap t, s')) ↔
      Leads (Machine.call s func args [] depth) (.done s' (.trap t)) := by
  unfold runFunc
  cases hcall : Machine.call s func args [] depth with
  | done s1 outcome =>
    constructor
    · rintro ⟨_, h⟩
      cases h
      exact .refl _
    · rintro ⟨n, hn⟩
      cases hn
      exact ⟨0, rfl⟩
  | next s1 m =>
    dsimp only
    constructor
    · rintro ⟨fuel, h⟩
      split at h
      · cases h
      · exact (Machine.exists_run_iff Outcome.noConfusion).mp ⟨fuel, h⟩
    · intro hleads
      obtain ⟨fuel, hrun⟩ := (Machine.exists_run_iff Outcome.noConfusion).mpr hleads
      exact ⟨fuel, by rw [hrun]⟩

end Store

/-! ## The two runs -/

namespace Structured

theorem exists_call_of_leads {M : StepResult} {r : Nat → EStateM.Result Exit Store (List Value)}
    (hfollows : ∀ fuel, FollowsCall type [] depth fuel M (r fuel)) {outcome : Outcome}
    (h : Leads M (.done s outcome)) :
    (∃ fuel vs, r fuel = .ok vs s ∧ vs.length = type.results.length ∧
        outcome = .results (packResults vs)) ∨
      ∃ fuel t, r fuel = .error (.trap t) s ∧ outcome = .trap t := by
  obtain ⟨n, hn⟩ := h
  have hf := hfollows (n + 1)
  cases hr : r (n + 1) with
  | ok vs s' =>
    rw [hr] at hf
    obtain ⟨hlen, k, hk⟩ := hf
    obtain ⟨rfl, rfl⟩ := hn.unique hk
    exact .inl ⟨n + 1, vs, hr, hlen, rfl⟩
  | error exit s' =>
    rw [hr] at hf
    match exit, hf with
    | .trap t, ⟨k, hk⟩ =>
      obtain ⟨rfl, rfl⟩ := hn.unique hk
      exact .inr ⟨n + 1, t, hr, rfl⟩
    | .outOfFuel, hlasts => exact absurd (hlasts.le_of_takes hn) (Nat.not_succ_le_self n)

/-- **Translation preserves meaning**: the machine runs a function to an outcome and a store exactly
    when the structured meaning of the bodies does. -/
theorem runFunc_iff_call {binaries : InstanceAddr → ByteArray} {s : Store} (hs : s.Hosts binaries)
    {func : FuncAddr} {type : FuncType} (htype : s.funcType? func = some type) {args : List Value}
    (hargs : args.length = type.params.length) (depth : Nat) :
    (∀ (values : List Value) (s' : Store),
      (∃ fuel, s.runFunc fuel func args depth = (.results values, s')) ↔
        ∃ fuel, call (Body.inBinary ∘ binaries) fuel depth func args s = .ok values s') ∧
    (∀ (t : Trap) (s' : Store), (∃ fuel, s.runFunc fuel func args depth = (.trap t, s')) ↔
        ∃ fuel, call (Body.inBinary ∘ binaries) fuel depth func args s = .error (.trap t) s') := by
  have hfollows : ∀ fuel, FollowsCall type [] depth fuel (Machine.call s func args [] depth)
      (call (Body.inBinary ∘ binaries) fuel depth func args s) :=
    fun fuel => call_follows hs fuel depth s func args type [] (.refl s) htype hargs
  constructor
  · intro values s'
    rw [Store.runFunc_results_iff htype]
    constructor
    · rintro ⟨yielded, hleads, rfl⟩
      obtain ⟨fuel, vs, hcall, hvs, heq⟩ | ⟨_, _, _, heq⟩ := exists_call_of_leads hfollows hleads
      · cases heq
        exact ⟨fuel, by rw [← hvs, unpackResults_packResults, hcall]⟩
      · cases heq
    · rintro ⟨fuel, hcall⟩
      have hf := hfollows fuel
      rw [hcall] at hf
      exact ⟨packResults values, hf.2, by rw [← hf.1, unpackResults_packResults]⟩
  · intro t s'
    rw [Store.runFunc_trap_iff]
    constructor
    · intro hleads
      obtain ⟨_, _, _, _, heq⟩ | ⟨fuel, t', hcall, heq⟩ := exists_call_of_leads hfollows hleads
      · cases heq
      · cases heq
        exact ⟨fuel, hcall⟩
    · rintro ⟨fuel, hcall⟩
      have hf := hfollows fuel
      rw [hcall] at hf
      exact hf

def countdown : ByteArray :=
  ⟨#[0x00, 0x61, 0x73, 0x6D, 0x01, 0x00, 0x00, 0x00,
    -- the types
    0x01, 0x0C, 0x02, 0x60, 0x01, 0x7F, 0x02, 0x7F, 0x7F, 0x60, 0x01, 0x7F, 0x01, 0x7F,
    0x03, 0x03, 0x02, 0x00, 0x01,
    -- the bodies
    0x0A, 0x20, 0x02, 0x0A, 0x00, 0x41, 0x09, 0x20, 0x00, 0x41, 0x07, 0x0C, 0x00, 0x0B,
    0x13, 0x00, 0x20, 0x00, 0x10, 0x00, 0x6A, 0x03, 0x01, 0x41, 0x01, 0x6B, 0x22, 0x00, 0x20, 0x00,
    0x0D, 0x00, 0x0B, 0x0B]⟩

/-- Counting down from three in a loop. -/
theorem call_countdown : ∃ (m : Module) (s s' : Store) (fuel : Nat),
    Module.compile .standard countdown = .ok m ∧
    s = (Store.empty.instantiate 0 m [] 16).2 ∧ s.funcType? ⟨1⟩ = some ⟨[.i32], [.i32]⟩ ∧
    call (Body.inBinary ∘ fun _ => countdown) fuel 16 ⟨1⟩ [.i32 3] s = .ok [.i32 0] s' := by
  have hrun : ∃ m, Module.compile .standard countdown = .ok m ∧
      (Store.empty.instantiate 0 m [] 16).2.funcType? ⟨1⟩ = some ⟨[.i32], [.i32]⟩ ∧
      ((Store.empty.instantiate 0 m [] 16).2.runFunc 100 ⟨1⟩ [.i32 3] 16).1 =
        .results [.i32 0] := by
    decide +kernel
  obtain ⟨m, hm, htype, hresult⟩ := hrun
  have hosts := (Store.hosts_empty fun _ => countdown).instantiate hm 0 [] 16
  have hsame : Store.empty.withBinary (fun _ => countdown) countdown = fun _ => countdown :=
    funext fun _ => ite_self _
  rw [hsame] at hosts
  obtain ⟨fuel, hcall⟩ :=
    ((runFunc_iff_call hosts htype rfl 16).1 [.i32 0] _).mp ⟨100, Prod.ext hresult rfl⟩
  exact ⟨m, _, _, fuel, hm, rfl, htype, hcall⟩

end Structured

end Wasm
