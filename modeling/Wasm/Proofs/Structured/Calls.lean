import Wasm.Proofs.Module.Sources
import Wasm.Proofs.Store.Hosting
import Wasm.Proofs.Structured.Functions

/-! # The machine follows calls

By induction on the levels that structured calls may be deep, the machine follows every call
(`call_follows`). -/

namespace Wasm

open Machine (Leads LeadsOn Lasts)

namespace Structured

/-! ## Objects of the store -/

theorem keeps_returning {x : Run State} (h : Keeps Store.Agrees x) (arity : Nat) :
    Keeps Store.Agrees (returning arity x) := by
  intro s
  unfold returning
  cases hx : x s with
  | ok st s' => exact h.ok hx
  | error exit s' =>
    have hs := h.error hx
    cases exit with
    | branch depth st | ret st | trap t | outOfFuel => exact hs

theorem keeps_host {call : FuncAddr → List Value → Run (List Value)}
    (hc : ∀ func args, Keeps Store.Agrees (call func args)) (type : FuncType)
    (program : HostProgram) :
    Keeps Store.Agrees (host call type program) := by
  induction program with
  | answer values => exact .ite (.pure _) (.throw _)
  | trap t => exact .throw _
  | report event next ih =>
    exact (Keeps.changing fun s => s.agrees_trace (s.trace.push event)).bind fun _ => ih
  | inspect resume ih => exact fun s => ih s.hostView s
  | change c next ih => exact (Keeps.changing fun s => (s.change_amend c).agrees).bind fun _ => ih
  | invoke func args resume ih =>
    intro s
    rw [host]
    dsimp only
    cases s.funcType? func with
    | none => exact .refl s
    | some callee =>
      dsimp only
      cases argumentError? callee.params args with
      | some e => exact ih _ s
      | none =>
        cases hx : call func args s with
        | ok values s' => exact (ih _).after ((hc func args).ok hx)
        | error exit s' =>
          have hs := (hc func args).error hx
          cases exit with
          | branch depth st | ret st | outOfFuel => exact hs
          | trap t => exact (ih _).after hs

theorem keeps_call (bodies : InstanceAddr → List Body) (fuel room : Nat) (func : FuncAddr)
    (args : List Value) : Keeps Store.Agrees (call bodies fuel room func args) := by
  induction fuel generalizing room func args with
  | zero => exact .throw _
  | succ fuel ih =>
    refine Keeps.get.bind fun s => ?_
    split
    · exact .throw _
    · exact keeps_host (fun func args => Keeps.get.bind fun _ => ih _ _ _) _ _
    · refine Keeps.get.bind fun s => ?_
      split
      · exact .throw _
      · cases room with
        | zero => exact .throw _
        | succ room =>
          dsimp only
          split
          · exact .throw _
          · exact keeps_returning (Code.keeps_run (fun _ _ => ih _ _ _) _ _ _) _

/-! ## Host functions -/

theorem unpackResults_packResults (vs : List Value) :
    Wasm.unpackResults vs.length (packResults vs) = vs :=
  match vs with
  | [] => rfl
  | [_] => rfl
  | _ :: _ :: _ => rfl

theorem length_of_argumentError? {params : List ValueType} {args : List Value}
    (h : argumentError? params args = none) : args.length = params.length := by
  unfold argumentError? at h
  split at h
  · cases h
  · next hlen => exact (Decidable.of_not_not hlen).symm

theorem FollowsCall.of_leads {type : FuncType} {callers : List Activation} {room steps : Nat}
    {M M' : StepResult} {r : EStateM.Result Exit Store (List Value)} (h : Leads M M')
    (h' : FollowsCall type callers room steps M' r) : FollowsCall type callers room steps M r := by
  match r, h' with
  | .ok vs s, ⟨hlen, hlead⟩ => exact ⟨hlen, h.trans hlead⟩
  | .error (.trap t) s, hlead => exact h.trans hlead
  | .error .outOfFuel s, hlasts => exact h.lasts hlasts

theorem host_follows {call : FuncAddr → List Value → Run (List Value)} {s0 : Store} {steps : Nat}
    (hkeeps : ∀ func args, Keeps Store.Agrees (call func args))
    (hcall : ∀ (s : Store) (func : FuncAddr) (args : List Value) (type : FuncType)
      (callers : List Activation), s0.Agrees s → s.funcType? func = some type →
      args.length = type.params.length →
      FollowsCall type callers (s.callDepth func) steps
        (Machine.call s func args callers (s.callDepth func)) (call func args s))
    (type : FuncType) (callers : List Activation) (room : Nat) (program : HostProgram) {s : Store}
    (hs : s0.Agrees s) :
    FollowsCall type callers room (steps + 1) (.next s ⟨.host type program, callers, room⟩)
      (host call type program s) := by
  induction program generalizing s with
  | answer values =>
    rw [host]
    split
    · next htypes =>
        refine ⟨?_, Leads.step (if_pos htypes)⟩
        simpa using congrArg List.length htypes
    · next htypes => exact Leads.step (if_neg htypes)
  | trap t => exact Leads.step rfl
  | report event next ih =>
    exact (ih (hs.trans (s.agrees_trace (s.trace.push event)))).of_leads (Leads.step rfl)
  | inspect resume ih => exact (ih s.hostView hs).of_leads (Leads.step rfl)
  | change c next ih =>
    exact (ih (hs.trans (s.change_amend c).agrees)).of_leads (Leads.step rfl)
  | invoke func args resume ih =>
    have hstep : Machine.step s ⟨.host type (.invoke func args resume), callers, room⟩ =
      Machine.hostStep s type (.invoke func args resume) callers room := rfl
    rw [Machine.hostStep] at hstep
    rw [host]
    dsimp only at hstep ⊢
    cases htype : s.funcType? func with
    | none =>
      rw [htype] at hstep
      exact Leads.step hstep
    | some callee =>
      rw [htype] at hstep
      dsimp only at hstep ⊢
      cases herr : argumentError? callee.params args with
      | some e =>
        rw [herr] at hstep
        exact (ih _ hs).of_leads (Leads.step hstep)
      | none =>
        rw [herr] at hstep
        dsimp only at hstep ⊢
        have hcallee := hcall s func args callee
          (.host type callee.results.length room resume :: callers) hs htype
          (length_of_argumentError? herr)
        rw [← hstep] at hcallee
        cases hx : call func args s with
        | ok values s' =>
          rw [hx] at hcallee
          obtain ⟨hlen, hlead⟩ := hcallee
          have hback : Wasm.unpackResults callee.results.length (packResults values) = values := by
            rw [← hlen, unpackResults_packResults]
          rw [Machine.deliver, hback] at hlead
          exact (ih _ (hs.trans ((hkeeps func args).ok hx))).of_leads ((Leads.step rfl).trans hlead)
        | error exit s' =>
          rw [hx] at hcallee
          cases exit with
          | trap t =>
            exact (ih _ (hs.trans ((hkeeps func args).error hx))).of_leads
              ((Leads.step rfl).trans hcallee)
          | outOfFuel => exact hcallee
          | branch depth st | ret st => exact hcallee.elim

/-! ## Functions -/

theorem call_follows {binaries : InstanceAddr → ByteArray} {s0 : Store} (hosts : s0.Hosts binaries)
    (fuel room : Nat) :
    CallsFollow (call (Body.inBinary ∘ binaries) fuel room) room fuel s0 := by
  induction fuel generalizing room with
  | zero => exact fun _ _ _ _ _ _ _ _ => trivial
  | succ fuel ih =>
    intro s func args type callers hs htype hargs
    obtain ⟨entry, hentry, rfl⟩ : ∃ entry, s.funcs[func.index]? = some entry ∧
        entry.type = type := by
      simpa [Store.funcType?] using htype
    rw [call, bind_of_ok (get_apply s), hentry, Machine.call, hentry]
    cases entry with
    | host type program =>
      refine host_follows (fun func args => Keeps.get.bind fun _ => keeps_call _ _ _ _ _)
        (fun s func args type callers hs htype hargs => ?_) type callers room _ hs
      exact ih (s.callDepth func) s func args type callers hs htype hargs
    | wasm type home index =>
      dsimp only
      rw [bind_of_ok (get_apply s)]
      cases hinst : s.instance? home with
      | none => exact Leads.refl _
      | some inst =>
        cases room with
        | zero => exact Leads.refl _
        | succ room =>
          have hinst0 : s0.instance? home = some inst := hs.instance? home ▸ hinst
          obtain ⟨options, hcompile⟩ := hosts.compiled home inst hinst0
          have hlowered := Module.lowered_of_compile hcompile
          dsimp only
          cases hbody : ((Body.inBinary ∘ binaries) home)[index]? with
          | none =>
            have hnone : inst.module.functions[index]? = none := by
              rw [Array.getElem?_eq_none_iff, ← hlowered.length]
              exact List.getElem?_eq_none_iff.mp hbody
            rw [hnone]
            exact Leads.refl _
          | some body =>
            have hlt : index < inst.module.functions.size := by
              rw [← hlowered.length]
              exact (List.getElem?_eq_some_iff.mp hbody).1
            have hfunc := Array.getElem?_eq_getElem hlt
            obtain ⟨ctx, accessors, accessors', hspaces, hcompiles, hkeys⟩ :=
              hlowered.compiles index body _ hbody hfunc
            have howned := hosts.owned _ (Array.mem_of_getElem? (hs.funcs ▸ hentry))
            have htyped := (howned.2 inst hinst0).2
            obtain ⟨site, sc, stop, rfl, hfn, hruns⟩ :=
              hcompiles.exists_site hspaces hkeys (by rw [hspaces]; exact htyped)
            rw [hfunc, ← hfn]
            exact hruns.follows_body (ih room) (keeps_call _ fuel room)
              (hosts.placed home site.inst hinst0).funcs hs hargs

end Structured

end Wasm
