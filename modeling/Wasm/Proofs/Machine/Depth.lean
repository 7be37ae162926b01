import Wasm.Proofs.Machine.Changes
import Wasm.Proofs.Machine.Steps

/-! # The limit on frames

`Machine.levels` lists the open calls from outside; more room shows only in the trap
(`Machine.step_widen`). -/

namespace Wasm

open List

variable {s s' : Store} {m : Machine} {func : FuncAddr}

/-- An open call from outside: its frames, and its room. -/
structure Level where
  frames : Nat
  room : Nat
deriving DecidableEq

/-- The most frames that the call may have. -/
def Level.limit (l : Level) : Nat := l.frames + l.room

/-- The calls from outside that wait. -/
def Activation.levels (l : Level) : List Activation → List Level
  | [] => [l]
  | .frame _ :: callers => levels { l with frames := l.frames + 1 } callers
  | .host _ _ room _ :: callers => l :: levels ⟨0, room⟩ callers

def Activation.limits (n : Nat) : List Activation → List Nat
  | [] => [n]
  | .frame _ :: callers => limits (n + 1) callers
  | .host _ _ room _ :: callers => n :: limits room callers

theorem Activation.map_limit_levels (l : Level) (callers : List Activation) :
    (levels l callers).map Level.limit = limits l.limit callers := by
  induction callers generalizing l with
  | nil => rfl
  | cons caller callers ih =>
    cases caller with
    | frame f =>
      rw [levels, limits, ih]
      simp only [Level.limit, Nat.add_right_comm]
    | host type arity room resume =>
      rw [levels, limits, map_cons, ih]
      simp only [Level.limit, Nat.zero_add]

/-- The frame that is being run, if it is one. -/
def Control.frames : Control → Nat
  | .frame _ => 1
  | .host _ _ => 0

namespace Machine

open Activation

/-- The open calls from outside. -/
def levels (m : Machine) : List Level := Activation.levels ⟨m.control.frames, m.room⟩ m.callers

def limits (m : Machine) : List Nat := m.levels.map Level.limit

theorem limits_eq (m : Machine) :
    m.limits = Activation.limits (m.control.frames + m.room) m.callers :=
  map_limit_levels _ _

theorem limits_ne_nil (m : Machine) : m.limits ≠ [] := by
  rw [limits_eq]
  generalize m.control.frames + m.room = n
  induction m.callers generalizing n with
  | nil => exact cons_ne_nil _ _
  | cons caller callers ih =>
    cases caller with
    | frame f => exact ih (n + 1)
    | host type arity room resume => exact cons_ne_nil _ _

/-! ## What a step does to the limits -/

/-- The limits after a step that opens no call. -/
inductive Limited (before : List Nat) : StepResult → Prop
  | same {s : Store} {m : Machine} (h : m.limits = before) : Limited before (.next s m)
  | ended {s : Store} {m : Machine} {n : Nat} (h : n :: m.limits = before) :
      Limited before (.next s m)
  | done {s : Store} {outcome : Outcome} : Limited before (.done s outcome)

theorem limited_unwind (s : Store) (t : Trap) (n : Nat) (callers : List Activation) :
    Limited (Activation.limits n callers) (unwind s t callers) := by
  induction callers generalizing n with
  | nil => exact .done
  | cons caller callers ih =>
    cases caller with
    | frame f => exact ih (n + 1)
    | host type arity room resume =>
      refine .ended (n := n) ?_
      simp only [limits_eq, Control.frames, Nat.zero_add, Activation.limits]

theorem limited_deliver (s : Store) (yielded : List Value) (callers : List Activation)
    (room : Nat) : Limited (Activation.limits room callers) (deliver s yielded callers room) := by
  cases callers with
  | nil => exact .done
  | cons caller callers =>
    cases caller with
    | frame f =>
      refine .same ?_
      simp only [limits_eq, Control.frames, Nat.add_comm 1 room, Activation.limits]
    | host type arity outer resume =>
      refine .ended (n := room) ?_
      simp only [limits_eq, Control.frames, Nat.zero_add, Activation.limits]

theorem limited_call (s : Store) (func : FuncAddr) (args : List Value) (callers : List Activation)
    (room : Nat) : Limited (Activation.limits room callers) (call s func args callers room) := by
  rw [call]
  split
  · refine .same ?_
    simp only [limits_eq, Control.frames, Nat.zero_add]
  · split
    · exact limited_unwind _ _ _ _
    · cases room with
      | zero => exact limited_unwind _ _ _ _
      | succ room =>
        dsimp only
        split
        · refine .same ?_
          simp only [limits_eq, Control.frames, Nat.add_comm 1 room]
        · exact limited_unwind _ _ _ _
  · exact limited_unwind _ _ _ _

theorem limits_step (s : Store) (m : Machine) : Limited m.limits (step s m) ∨
      ∃ s' m' func, step s m = .next s' m' ∧ m'.limits = s.callDepth func :: m.limits := by
  obtain ⟨control, callers, room⟩ := m
  rw [limits_eq]
  cases control with
  | frame f =>
    left
    simp only [Control.frames, Nat.add_comm 1 room, step]
    cases f.step s with
    | ok effect s' =>
      cases effect with
      | next f' =>
        refine .same ?_
        simp only [limits_eq, Control.frames, Nat.add_comm 1 room]
      | call func f' => exact limited_call s' func _ (.frame _ :: callers) room
      | leave f' => exact limited_deliver s' f'.result callers (room + 1)
    | error t s' => exact limited_unwind s' t (room + 1) callers
  | host type program =>
    simp only [Control.frames, Nat.zero_add, step]
    cases program with
    | answer values =>
      left
      rw [hostStep]
      split
      · exact limited_deliver s _ callers room
      · exact limited_unwind s _ room callers
    | trap t => exact .inl (limited_unwind s t room callers)
    | report event next | inspect resume | change c next =>
      refine .inl (.same ?_)
      simp only [limits_eq, Control.frames, Nat.zero_add]
    | invoke func args resume =>
      rw [hostStep]
      split
      · exact .inl (limited_unwind s _ room callers)
      · next callee _ =>
          split
          · refine .inl (.same ?_)
            simp only [limits_eq, Control.frames, Nat.zero_add]
          · have hcall := limited_call s func args
              (.host type callee.results.length room resume :: callers) (s.callDepth func)
            -- the call stands in a level of its own, around which the limits are the old ones
            generalize call s func args _ _ = r at hcall ⊢
            cases hcall with
            | same h => exact .inr ⟨_, _, func, rfl, h⟩
            | ended h => exact .inl (.same (List.cons.inj h).2)
            | done => exact .inl .done

/-! ## Along a run -/

end Machine

theorem Store.Agrees.callDepth (h : s.Agrees s') (func : FuncAddr) :
    s'.callDepth func = s.callDepth func := by
  simp only [Store.callDepth, Store.instance?, h.funcs, h.instances]

namespace Machine

def Bounded (s : Store) (depth : Nat) : StepResult → Prop
  | .done _ _ => True
  | .next s' m =>
    s.Agrees s' ∧ ∃ inner, m.limits = inner ++ [depth] ∧ ∀ n ∈ inner, ∃ func, n = s.callDepth func

theorem bounded_call (s : Store) (func : FuncAddr) (args : List Value) (depth : Nat) :
    Bounded s depth (call s func args [] depth) := by
  have hstore := store_call s func args [] depth
  have hlimited := limited_call s func args [] depth
  generalize call s func args [] depth = r at hstore hlimited ⊢
  cases hlimited with
  | same h =>
    cases hstore
    exact ⟨.refl _, [], h, by simp⟩
  | ended h =>
    -- no call from outside is open around the outermost one
    exact absurd (List.cons.inj h).2 (limits_ne_nil _)
  | done => trivial

variable {depth : Nat}

theorem Bounded.step (h : Bounded s depth (.next s' m)) : Bounded s depth (step s' m) := by
  obtain ⟨hs, inner, hm, hinner⟩ := h
  have hs' := hs.trans (step_agrees s' m)
  rcases limits_step s' m with hlimited | ⟨s'', m', func, heq, hm'⟩
  · generalize Machine.step s' m = r at hs' hlimited ⊢
    cases hlimited with
    | same h => exact ⟨hs', inner, h.trans hm, hinner⟩
    | ended h =>
      rw [hm] at h
      cases inner with
      | nil => exact absurd (List.cons.inj h).2 (limits_ne_nil _)
      | cons n inner =>
        exact ⟨hs', inner, (List.cons.inj h).2, fun k hk => hinner k (.tail n hk)⟩
    | done => trivial
  · rw [heq] at hs' ⊢
    refine ⟨hs', s'.callDepth func :: inner, by rw [hm', hm]; rfl, ?_⟩
    intro n hn
    rcases mem_cons.mp hn with rfl | hn
    · exact ⟨func, hs.callDepth func⟩
    · exact hinner n hn

theorem Bounded.takes {n : Nat} {r r' : StepResult} (h : Takes n r r') (hr : Bounded s depth r) :
    Bounded s depth r' := by
  induction h with
  | zero => exact hr
  | succ _ ih => exact ih hr.step

theorem levels_of_leads {args : List Value} (h : Leads (call s func args [] depth) (.next s' m)) :
    s.Agrees s' ∧ ∃ inner outer, m.levels = inner ++ [outer] ∧ outer.frames + outer.room = depth ∧
      ∀ l ∈ inner, ∃ g, l.frames + l.room = s.callDepth g := by
  obtain ⟨n, hn⟩ := h
  obtain ⟨hs, inner, hm, hinner⟩ := Bounded.takes hn (bounded_call s func args depth)
  obtain ⟨first, last, heq, rfl, hlast⟩ := map_eq_append_iff.mp hm
  obtain ⟨outer, rfl, hd⟩ := map_eq_singleton_iff.mp hlast
  exact ⟨hs, first, outer, heq, hd, fun l hl => hinner l.limit (mem_map_of_mem hl)⟩

/-! ## At the limit -/

end Machine

/-- The trap of a call without room. -/
def Store.limitTrap (s : Store) (home : InstanceAddr) : Trap :=
  if (s.instance? home).isSome then .callStackExhausted else .hostError

namespace Machine

/-- The next operation of the machine calls a function. -/
inductive Attempts (s : Store) (func : FuncAddr) : Machine → Prop
  | frame {f f' : Frame} {s' : Store} {callers : List Activation} {room : Nat}
      (h : f.step s = .ok (.call func f') s') : Attempts s func ⟨.frame f, callers, room⟩

variable {callers : List Activation}

theorem Attempts.step_eq (h : m.Attempts s func) :
    ∃ f, step s m = callFrom s f func m.callers m.room := by
  cases h with
  | @frame f f' s' callers room h =>
    cases f.step_acts.call h
    exact ⟨f', by simp only [step, h]⟩

variable {type : FuncType} {home : InstanceAddr} {index : Nat} {l : Level}

theorem Attempts.levels_host (h : m.Attempts s func) {body : List Value → HostProgram}
    (hf : s.funcs[func.index]? = some (.host type body)) :
    ∃ m', step s m = .next s m' ∧ m'.levels = m.levels := by
  obtain ⟨f, hstep⟩ := h.step_eq
  cases h
  rw [hstep]
  simp only [callFrom, call, hf]
  exact ⟨_, rfl, rfl⟩

theorem call_without_room (hf : s.funcs[func.index]? = some (.wasm type home index))
    (args : List Value) : call s func args callers 0 = unwind s (s.limitTrap home) callers := by
  simp only [call, hf, Store.limitTrap]
  cases s.instance? home with
  | none | some inst => rfl

theorem exists_levels_eq (n room : Nat) (callers : List Activation) :
    ∃ k rest, Activation.levels ⟨n, room⟩ callers = ⟨k, room⟩ :: rest := by
  induction callers generalizing n with
  | nil => exact ⟨n, [], rfl⟩
  | cons caller callers ih =>
    cases caller with
    | frame f => exact ih (n + 1)
    | host type arity outer resume => exact ⟨n, _, rfl⟩

theorem Attempts.step_at_limit (h : m.Attempts s func)
    (hf : s.funcs[func.index]? = some (.wasm type home index)) {rest : List Level}
    (hl : m.levels = l :: rest) (hlimit : l.frames = l.limit) :
    step s m = unwind s (s.limitTrap home) m.callers := by
  obtain ⟨f, hstep⟩ := h.step_eq
  obtain ⟨k, others, hlevels⟩ := exists_levels_eq m.control.frames m.room m.callers
  -- the room of the innermost level is that of the machine
  have hroom : m.room = 0 := by
    rw [levels, hlevels] at hl
    obtain ⟨rfl, -⟩ := List.cons.inj hl
    simpa [Level.limit] using hlimit
  rw [hstep, hroom]
  exact call_without_room hf _

theorem unwind_of_levels {l' : Level} (h : Activation.levels l callers = [l']) (s : Store)
    (t : Trap) : unwind s t callers = .done s (.trap t) := by
  induction callers generalizing l with
  | nil => rfl
  | cons caller callers ih =>
    cases caller with
    | frame f => exact ih h
    | host type arity outer resume =>
      obtain ⟨k, rest, hrest⟩ := exists_levels_eq 0 outer callers
      simp only [Activation.levels, hrest, List.cons.injEq, reduceCtorEq, and_false] at h

end Machine

/-! ## More room -/

def Activation.widen (k : Nat) : List Activation → List Activation × Nat
  | [] => ([], k)
  | .frame f :: callers =>
    let (wide, extra) := widen k callers
    (.frame f :: wide, extra)
  | .host type arity room resume :: callers =>
    let (wide, extra) := widen k callers
    (.host type arity (room + extra) resume :: wide, 0)

def Machine.widen (k : Nat) (m : Machine) : Machine :=
  let (wide, extra) := Activation.widen k m.callers
  ⟨m.control, wide, m.room + extra⟩

def StepResult.widen (k : Nat) : StepResult → StepResult
  | .next s m => .next s (m.widen k)
  | .done s outcome => .done s outcome

namespace Machine

open Activation

variable (k : Nat)

theorem unwind_widen (s : Store) (t : Trap) (callers : List Activation) :
    unwind s t (Activation.widen k callers).1 = (unwind s t callers).widen k := by
  induction callers with
  | nil => rfl
  | cons caller callers ih =>
    cases caller with
    | frame f => exact ih
    | host type arity room resume => rfl

theorem deliver_widen (s : Store) (yielded : List Value) (callers : List Activation) (room : Nat) :
    deliver s yielded (Activation.widen k callers).1 (room + (Activation.widen k callers).2) =
      (deliver s yielded callers room).widen k := by
  cases callers with
  | nil => rfl
  | cons caller callers =>
    cases caller with
    | frame f | host type arity room resume => rfl

theorem widen_extra (s : Store) (t : Trap) (callers : List Activation) :
    (Activation.widen k callers).2 = 0 ∨ unwind s t callers = .done s (.trap t) := by
  induction callers with
  | nil => exact .inr rfl
  | cons caller callers ih =>
    cases caller with
    | frame f => exact ih
    | host type arity room resume => exact .inl rfl

theorem call_widen (s : Store) (func : FuncAddr) (args : List Value) (callers : List Activation)
    (room : Nat) :
    call s func args callers room = .done s (.trap .callStackExhausted) ∨
    call s func args (Activation.widen k callers).1 (room + (Activation.widen k callers).2) =
      (call s func args callers room).widen k := by
  rw [call, call]
  cases s.funcs[func.index]? with
  | none => exact .inr (unwind_widen k s _ callers)
  | some entry =>
    cases entry with
    | host type body => exact .inr rfl
    | wasm type home index =>
      dsimp only
      cases s.instance? home with
      | none => exact .inr (unwind_widen k s _ callers)
      | some inst =>
        cases room with
        | zero =>
          rcases widen_extra k s .callStackExhausted callers with hextra | hdone
          · right
            rw [hextra]
            exact unwind_widen k s _ callers
          · exact .inl hdone
        | succ room =>
          right
          rw [Nat.add_right_comm]
          dsimp only
          cases inst.module.functions[index]? with
          | none => exact unwind_widen k s _ callers
          | some func => rfl

theorem step_widen (s : Store) (m : Machine) :
    (∃ s', step s m = .done s' (.trap .callStackExhausted)) ∨
      step s (m.widen k) = (step s m).widen k := by
  obtain ⟨control, callers, room⟩ := m
  cases control with
  | frame f =>
    simp only [widen, step]
    cases f.step s with
    | ok effect s' =>
      cases effect with
      | next f' => exact .inr rfl
      | call func f' =>
        rcases call_widen k s' func _ (.frame _ :: callers) room with h | h
        · exact .inl ⟨s', h⟩
        · exact .inr h
      | leave f' =>
        right
        rw [Nat.add_right_comm]
        exact deliver_widen k s' f'.result callers (room + 1)
    | error t s' => exact .inr (unwind_widen k s' t callers)
  | host type program =>
    simp only [widen, step]
    cases program with
    | answer values =>
      right
      simp only [hostStep]
      split
      · exact deliver_widen k s _ callers room
      · exact unwind_widen k s _ callers
    | trap t => exact .inr (unwind_widen k s t callers)
    | report event next | inspect resume | change c next => exact .inr rfl
    | invoke func args resume =>
      simp only [hostStep]
      split
      · exact .inr (unwind_widen k s _ callers)
      · next callee _ =>
          split
          · exact .inr rfl
          · rcases call_widen k s func args
              (.host type callee.results.length room resume :: callers) (s.callDepth func)
              with h | h
            · exact .inl ⟨s, h⟩
            · exact .inr h

theorem run_widen (fuel : Nat) (s : Store) (m : Machine)
    (h : (run fuel s m).1 ≠ .trap .callStackExhausted) :
    run fuel s (m.widen k) = run fuel s m := by
  induction fuel generalizing s m with
  | zero => rfl
  | succ fuel ih =>
    rw [run] at h
    rcases step_widen k s m with ⟨s', hs⟩ | hs
    · rw [hs] at h
      exact absurd rfl h
    · rw [run, run, hs]
      cases hm : step s m with
      | next s' m' =>
        rw [hm] at h
        exact ih s' m' h
      | done s' outcome => rfl

end Machine

theorem Store.runFunc_widen (fuel : Nat) (s : Store) (func : FuncAddr) (args : List Value)
    (depth k : Nat) (h : (s.runFunc fuel func args depth).1 ≠ .trap .callStackExhausted) :
    s.runFunc fuel func args (depth + k) = s.runFunc fuel func args depth := by
  unfold runFunc at h ⊢
  rcases Machine.call_widen k s func args [] depth with hcall | hcall
  · rw [hcall] at h
    exact absurd rfl h
  · simp only [Activation.widen] at hcall
    rw [hcall]
    cases hr : Machine.call s func args [] depth with
    | done s' outcome => rfl
    | next s' m =>
      rw [hr] at h
      dsimp only [StepResult.widen] at h ⊢
      rw [Machine.run_widen k fuel s' m]
      intro hexhausted
      apply h
      cases hrun : Machine.run fuel s' m with
      | mk outcome s'' =>
        rw [hrun] at hexhausted
        cases hexhausted
        rfl

open Machine in
/-- **The limit on frames is kept, and shows only in the trap that it raises**: a run that ends
    otherwise is the same under every higher limit. -/
theorem Store.runFunc_within_depth (s : Store) (func : FuncAddr) (args : List Value) (depth : Nat) :
    (∀ s' m, Leads (call s func args [] depth) (.next s' m) →
      (∃ inner outer, m.levels = inner ++ [outer] ∧ outer.frames ≤ depth ∧ outer.limit = depth ∧
        ∀ l ∈ inner, ∃ g, l.frames ≤ s.callDepth g ∧ l.limit = s.callDepth g) ∧
      ∀ g, m.Attempts s' g → (∀ type body, s'.funcs[g.index]? = some (.host type body) →
          ∃ m', step s' m = .next s' m' ∧ m'.levels = m.levels) ∧
        ∀ type home index, s'.funcs[g.index]? = some (.wasm type home index) →
          (∀ l, m.levels = [l] → l.frames = depth →
            step s' m = .done s' (.trap (s'.limitTrap home))) ∧
          ∀ l rest, m.levels = l :: rest → l.frames = l.limit →
            step s' m = unwind s' (s'.limitTrap home) m.callers) ∧
    (∀ type home index fuel, s.funcs[func.index]? = some (.wasm type home index) → depth = 0 →
      s.runFunc fuel func args depth = (.trap (s.limitTrap home), s)) ∧
    ∀ fuel depth', depth ≤ depth' → (s.runFunc fuel func args depth).1 ≠ .trap .callStackExhausted →
      s.runFunc fuel func args depth' = s.runFunc fuel func args depth := by
  refine ⟨?_, ?_, ?_⟩
  · intro s' m hleads
    obtain ⟨-, inner, outer, hm, houter, hinner⟩ := levels_of_leads hleads
    refine ⟨⟨inner, outer, hm, by omega, houter, ?_⟩, ?_⟩
    · intro l hl
      obtain ⟨g, hg⟩ := hinner l hl
      exact ⟨g, by omega, hg⟩
    · intro g hg
      refine ⟨fun _ _ hf => hg.levels_host hf, fun _ _ _ hf => ⟨?_, ?_⟩⟩
      · intro l hl hdepth
        have hlimit : l.limit = depth := by
          rw [hl] at hm
          obtain ⟨rfl, rfl⟩ : inner = [] ∧ outer = l := by
            cases inner with
            | nil => exact ⟨rfl, (List.cons.inj hm).1.symm⟩
            | cons _ inner => exact absurd (List.cons.inj hm).2.symm (by simp)
          exact houter
        rw [hg.step_at_limit hf hl (hdepth.trans hlimit.symm)]
        exact unwind_of_levels hl s' _
      · intro l rest hl hlimit
        exact hg.step_at_limit hf hl hlimit
  · rintro type home index fuel hf rfl
    simp only [runFunc, call_without_room hf args]
    rfl
  · intro fuel depth' hle h
    obtain ⟨k, rfl⟩ := Nat.exists_eq_add_of_le hle
    exact runFunc_widen fuel s func args depth k h

def Store.counter : Store :=
  { Store.empty with
    funcs := #[.wasm ⟨[], [.i32]⟩ ⟨0⟩ 0, .host ⟨[], [.i32]⟩ fun _ =>
      .inspect fun view => match view.globals.toList with
        | ⟨_, .i32 n, _⟩ :: _ => .change (.setGlobal ⟨0⟩ (.i32 (n + 1))) (.inspect fun view =>
            .answer (view.globals.toList.map (·.value)))
        | _ => .trap .hostError]
    globals := #[⟨⟨.i32, true⟩, .i32 6, none⟩]
    instances := #[
      some { (default : Instance) with
        module := { (default : Module) with
          functions := #[⟨0, ⟨[], [.i32]⟩, #[], 0, #[.basic (.call 1), .basic .ret]⟩] }
        funcs := #[⟨0⟩, ⟨1⟩] }] }

/-- One frame is enough, and more make no difference. -/
theorem Store.runFunc_counter : (counter.runFunc 9 ⟨0⟩ [] 1).1 = .results [.i32 7] ∧
    (counter.runFunc 9 ⟨0⟩ [] 1).2.globals[0]?.map (·.value) = some (.i32 7) ∧
    (∀ depth, 1 ≤ depth → counter.runFunc 9 ⟨0⟩ [] depth = counter.runFunc 9 ⟨0⟩ [] 1) ∧
    counter.runFunc 9 ⟨0⟩ [] 0 = (.trap .callStackExhausted, counter) :=
  ⟨rfl, rfl, fun depth h => (runFunc_within_depth _ _ _ 1).2.2 9 depth h (by intro h; cases h),
    (runFunc_within_depth counter ⟨0⟩ [] 0).2.1 _ ⟨0⟩ _ 9 rfl rfl⟩

def Store.goneCallee : Store :=
  { Store.empty with
    funcs := #[.wasm .nullary ⟨0⟩ 0, .wasm .nullary ⟨1⟩ 0]
    instances := #[
      some { (default : Instance) with
        module := { (default : Module) with
          functions := #[⟨0, .nullary, #[], 0, #[.basic (.call 1)]⟩] }
        funcs := #[⟨0⟩, ⟨1⟩] },
      none] }

open Machine in
/-- At the limit, a callee whose instance is gone is reported first. -/
theorem Store.step_goneCallee : ∃ m,
    Leads (call goneCallee ⟨0⟩ [] [] 1) (.next goneCallee m) ∧ m.levels = [⟨1, 0⟩] ∧
    m.Attempts goneCallee ⟨1⟩ ∧
    (∃ type home index, goneCallee.funcs[1]? = some (.wasm type home index)) ∧
    step goneCallee m = .done goneCallee (.trap .hostError) ∧
    step goneCallee m ≠ .done goneCallee (.trap .callStackExhausted) := by
  refine ⟨_, .refl _, rfl, .frame rfl, ⟨_, _, _, rfl⟩, rfl, ?_⟩
  intro h
  cases h

end Wasm
