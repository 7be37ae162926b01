import Wasm.Proofs.Structured.Instructions

/-! # The machine follows structured code

By induction on the layout of the code; a loop is followed round by round. -/

namespace Wasm

open List
open Assembly (place)
open Machine (Leads LeadsOn Lasts)

variable {belows : List (List Value)} {s s0 : Store} {st : State} {f : Frame} {inner : List Value}
  {p : Nat} {rest : List Operand}

namespace Structured

variable {w : Surroundings} {targets : List (Label × Nat)} {M : StepResult}
  {R Q : State → Frame → Prop}

/-! ## Scopes -/

variable {n : Nat} {r : EStateM.Result Exit Store State}

theorem enter_scope {m : Nat} (h : MirrorsWith w.site belows.flatten p (m + n) st f) :
    MirrorsWith w.site (st.operands.drop n :: belows).flatten p n
      (st.holding (st.operands.take n)) f ∧ (st.operands.drop n).length = m := by
  obtain ⟨hf, hlen⟩ := h
  refine ⟨⟨hf.split (take_append_drop n st.operands).symm, ?_⟩, ?_⟩
  · show (st.operands.take n).length = n
    rw [length_take, hlen]
    omega
  · rw [length_drop, hlen]
    omega

theorem leave_scope {k : Nat} (h : MirrorsWith w.site (inner :: belows).flatten p k st f) :
    MirrorsWith w.site belows.flatten p (inner.length + k)
      (st.holding (st.operands ++ inner)) f := by
  refine ⟨h.1.join, ?_⟩
  show (st.operands ++ inner).length = inner.length + k
  rw [length_append, h.2, Nat.add_comm]

variable {label : Label} {below : List Value}

theorem Follows.leaving {t : Label × Nat} {x : Run State} {unr : Bool} {results : List ValueType}
    {ops : List Operand}
    (h : Follows w ((label, results.length) :: t :: targets) (inner :: belows)
      (fun st f => unr = false ∧
      MirrorsWith w.site (inner :: belows).flatten p ops.length st f) M (x s))
    (hops : unr = false → ops = (known results).reverse) (hlen : inner.length = rest.length)
    (hend : place w.site.fin.asm.labels label = p) :
    Follows w (t :: targets) belows
      (MirrorsWith w.site belows.flatten p ((known results).reverse ++ rest).length) M
      (Structured.inScope results.length inner x s) := by
  rw [length_append, length_reverse, length_known, Nat.add_comm, ← hlen]
  refine h.inScope (fun st f hf => ?_) (fun st f s' _ hle hf => ?_)
  · obtain ⟨hu, hf⟩ := hf
    rw [hops hu, length_reverse, length_known] at hf
    exact leave_scope hf
  · rw [hend] at hf
    have hlen : (st.operands.take results.length).length = results.length := by
      rw [length_take, Nat.min_eq_left hle]
    have hcarried : MirrorsWith w.site (inner :: belows).flatten p results.length
        (st.holding (st.operands.take results.length)) f := ⟨hf, hlen⟩
    exact leave_scope hcarried

theorem MirrorsWith.choose {other : Label} (h : MirrorsWith w.site below p (n + 1) st f)
    (hjump : w.site.fin.asm.code[p]? = some (.jumpUnless other)) (s : Store) :
    ∃ v st0, st = st0.holding (v :: st0.operands) ∧ ∃ f0, MirrorsWith w.site below
      (if v.asI32 = 0 then place w.site.fin.asm.labels other else p + 1) n st0 f0 ∧
        Leads (w.state s f) (w.state s f0) := by
  obtain ⟨@⟨values, slots, ops, hstores⟩, hops⟩ := h
  obtain ⟨v, vs, rfl⟩ := exists_cons_of_length_eq_add_one hops
  exact ⟨v, ⟨w.site.inst, values, vs⟩, rfl, _, ⟨.intro hstores, Nat.succ.inj hops⟩,
    (Spot.leadsOn_jumpUnless hjump v (vs ++ below)).leads⟩

theorem Follows.thenLeads (h : Follows w targets belows R M r)
    (hR : ∀ st f s, R st f → ∃ f', Q st f' ∧ Leads (w.state s f) (w.state s f')) :
    Follows w targets belows Q M r := by
  match r, h with
  | .ok st s, ⟨f, hf, hm⟩ =>
    obtain ⟨f', hf', hm'⟩ := hR st f s hf
    exact ⟨f', hf', hm.trans hm'⟩
  | .error (.branch depth st) s, ha => exact ha
  | .error (.ret st) s, ha => exact ha
  | .error (.trap t) s, hm => exact hm
  | .error .outOfFuel s, hm => exact hm

abbrev Surroundings.lasting (w : Surroundings) (steps : Nat) : Surroundings := { w with steps }

theorem Follows.lasting (h : Follows w targets belows R M r) (hle : n ≤ w.steps) :
    Follows (w.lasting n) targets belows R M r := by
  match r, h with
  | .ok st s, h => exact h
  | .error (.branch depth st) s, ha => exact ha
  | .error (.ret st) s, ha => exact ha
  | .error (.trap t) s, hm => exact hm
  | .error .outOfFuel s, hm => exact Lasts.mono hm hle

theorem Follows.of_leadsOn {M' : StepResult} (h : LeadsOn M M')
    (h' : Follows (w.lasting n) targets belows R M' r) :
    Follows (w.lasting (n + 1)) targets belows R M r := by
  match r, h' with
  | .ok st s, ⟨f, hf, hm⟩ => exact ⟨f, hf, h.leads.trans hm⟩
  | .error (.branch depth st) s, ha => exact Arrives.of_leads h.leads ha
  | .error (.ret st) s, ha => exact Arrives.of_leads h.leads ha
  | .error (.trap t) s, hm => exact h.leads.trans hm
  | .error .outOfFuel s, hm => exact h.lasts hm

/-! ## Loops -/

theorem follows_iterate {body : State → Run State}
    (hstart : place w.site.fin.asm.labels label = p) (hkeeps : ∀ st, Keeps Store.Agrees (body st))
    (hbody : ∀ st f s, s0.Agrees s → MirrorsWith w.site (inner :: belows).flatten p n st f →
      Follows w ((label, n) :: targets) (inner :: belows) R (w.state s f) (body st s))
    (fuel : Nat) (hs : s0.Agrees s) (hf : MirrorsWith w.site (inner :: belows).flatten p n st f) :
    Follows (w.lasting (min fuel w.steps)) ((label, n) :: targets) (inner :: belows) R
      (w.state s f) (iterate n body fuel st s) := by
  induction fuel generalizing st f s with
  | zero =>
    trivial
  | succ fuel ih =>
    have hround := hbody st f s hs hf
    rcases iterate_succ body n fuel st s with ⟨st', s', hx, heq⟩ | ⟨-, heq⟩
    · rw [hx] at hround
      obtain ⟨_, _, f', ht, hle, hf', hlead⟩ := hround
      cases ht
      rw [hstart] at hf'
      have hlen : (st'.operands.take n).length = n := by
        rw [length_take, Nat.min_eq_left hle]
      have hagain := ih (hs.trans ((hkeeps st).error hx)) ⟨hf', hlen⟩
      rw [heq]
      exact (Follows.of_leadsOn hlead hagain).lasting (by show _ ≤ min fuel w.steps + 1; omega)
    · rw [heq]
      exact hround.lasting (Nat.min_le_right _ _)

/-! ## Code -/

theorem Mirrors.blockType {site : Site} {bt : BlockType} {type : FuncType}
    (h : Mirrors site below p st f) (ht : site.ctx.spaces.blockType bt = .ok type) :
    st.blockType bt = type := by
  obtain ⟨-⟩ := h
  rw [site.spaces] at ht
  rw [State.blockType]
  rw [ht]

end Structured

variable {sc : Scope} {os : List Scope}

theorem Scope.Hold.cons (h : Scope.Hold os belows) (hlen : inner.length = rest.length) :
    Scope.Hold (sc.holding false rest :: os) (inner :: belows) :=
  congr (congrArg List.cons hlen) h

theorem Scope.length_inner (sc : Scope) (kind : ScopeKind) (type : FuncType)
    (label endLabel : Label) (elseLabel : Option Label) :
    (sc.inner kind type label endLabel elseLabel).operands.length = type.params.length := by
  show ((known type.params).reverse).length = _
  rw [length_reverse, length_known]

theorem Scope.length_toElse (sc : Scope) : sc.toElse.operands.length = sc.params.length := by
  show ((known sc.params).reverse).length = _
  rw [length_reverse, length_known]

theorem Scope.split_of_live (h : sc.Live) {ts : List ValueType}
    (hp : sc.operands = known ts.reverse ++ rest) :
    (∀ o ∈ rest, o ≠ .unknown) ∧ sc.operands.length = rest.length + ts.length := by
  refine ⟨fun o ho => h.known o (hp ▸ mem_append_right _ ho), ?_⟩
  rw [hp, length_append, length_known, length_reverse, Nat.add_comm]

open Structured

theorem Code.Laid.follows {w : Surroundings} {call : FuncAddr → List Value → Run (List Value)}
    {steps fuel base : Nat} (hcalls : CallsFollow call w.room steps s0)
    (hkeeps : ∀ func args, Keeps Store.Agrees (call func args)) (hsteps : w.steps ≤ steps + 1)
    (hfuel : w.steps ≤ fuel) (hlinked : w.site.inst.Linked s0)
    (hbase : base = LocalSlot.width w.site.types) {sc' : Scope} {c : Code} {p' : Nat}
    (h : c.Laid w.site.ctx base w.site.fin os sc p sc' p') (hl : Scope.AllLive (sc :: os))
    (hb : Scope.Hold os belows) (hs : s0.Agrees s)
    (hf : MirrorsWith w.site belows.flatten p sc.operands.length st f) :
    Follows w ((sc :: os).map Scope.exit) belows (fun st f => sc'.unreachable = false ∧
        MirrorsWith w.site belows.flatten p' sc'.operands.length st f)
      (w.state s f) (c.run call fuel st s) := by
  induction h generalizing belows s st f with
  | done => exact ⟨f, ⟨(hl _ mem_cons_self).reachable, hf⟩, .refl _⟩
  | lost hlost =>
    rw [(hl _ mem_cons_self).isEmitting] at hlost
    cases hlost
  | @plain os sc i hi next ops unr p p1 sc' p' hm hat hn ih =>
    refine (exec_follows hcalls hsteps hs hlinked hbase hm hat hl hb hf).bind ?_
    rintro st1 f1 s1 hx ⟨rfl, hf1⟩
    exact ih (hl.held (hm.known_of (hl _ mem_cons_self).known)) hb
      (hs.trans ((keeps_exec hkeeps st i).ok hx)) hf1
  | @block os sc bt type rest body next inner label p p1 sc' p' ht hp hbody hc hend hn ihb ih =>
    have hsc := hl _ mem_cons_self
    obtain ⟨hrest, hcount⟩ := Scope.split_of_live hsc hp
    rw [hcount] at hf
    obtain ⟨hin, hlen⟩ := enter_scope hf
    rw [Code.run, hf.1.blockType ht]
    refine Follows.bind (R := MirrorsWith w.site belows.flatten p1
      ((known type.results).reverse ++ rest).length) ?_ fun st1 f1 s1 hx hf1 => ?_
    · have hinner := ihb ((hl.held hrest).cons (hsc.inner .block type label label none))
        (hb.cons hlen) hs (by rwa [Scope.length_inner])
      exact hinner.leaving hc hlen hend
    · exact ih (hl.held (reverse_known_append hrest)) hb
        (hs.trans ((keeps_inScope (Code.keeps_run hkeeps _ _ _) _ _).ok hx)) hf1
  | @loop os sc bt type rest body next inner label endLabel p p1 sc' p' ht hp hbody hc hstart hn
      ihb ih =>
      have hsc := hl _ mem_cons_self
      obtain ⟨hrest, hcount⟩ := Scope.split_of_live hsc hp
      rw [hcount] at hf
      obtain ⟨hin, hlen⟩ := enter_scope hf
      have hlive := (hl.held hrest).cons (hsc.inner .loop type label endLabel none)
      rw [Code.run, hf.1.blockType ht]
      refine Follows.bind (R := MirrorsWith w.site belows.flatten p1
        ((known type.results).reverse ++ rest).length) ?_ fun st1 f1 s1 hx hf1 => ?_
      · have hrounds := follows_iterate hstart (Code.keeps_run hkeeps fuel body)
          (fun st1 f1 s1 hs1 hf1 => ihb hlive (hb.cons hlen) hs1 (by rwa [Scope.length_inner]))
          fuel hs hin
        rw [Nat.min_eq_right hfuel] at hrounds
        refine hrounds.inScope (fun st1 f1 hf1 => ?_)
          (fun st1 f1 s1 hx => absurd hx (iterate_ne_branch _ _ _ _ _ _))
        obtain ⟨hu, hf1⟩ := hf1
        rw [hc hu] at hf1
        rw [length_append, Nat.add_comm, ← hlen]
        exact leave_scope hf1
      · exact ih (hl.held (reverse_known_append hrest)) hb
          (hs.trans ((keeps_inScope (keeps_iterate (Code.keeps_run hkeeps _ _) _ _ _) _ _).ok hx))
          hf1
  | @ifThen os sc bt type rest yes next inner label other p p1 sc' p' ht hsame hp hjump hy hc hend
      helse hn ihy ih =>
      have hsc := hl _ mem_cons_self
      obtain ⟨hrest, hcount⟩ := Scope.split_of_live hsc hp
      rw [hcount, length_append, ← Nat.add_assoc] at hf
      have hbt := hf.1.blockType ht
      obtain ⟨v, st0, rfl, f0, hf0, hlead⟩ := hf.choose hjump s
      obtain ⟨hin, hlen⟩ := enter_scope hf0
      have hkeep := Keeps.ite (P := v.asI32 ≠ 0) (keeps_inScope (Code.keeps_run hkeeps fuel yes
        (st0.holding (st0.operands.take type.params.length))) type.results.length
        (st0.operands.drop type.params.length)) (.pure st0)
      rw [Code.run, hbt]
      refine Follows.bind (R := MirrorsWith w.site belows.flatten p1
        ((known type.results).reverse ++ rest).length) ?_ fun st1 f1 s1 hx hf1 => ?_
      · show Follows _ _ _ _ _ ((if v.asI32 ≠ 0 then _ else _ : Run State) s)
        by_cases hz : v.asI32 = 0
        · -- The missing arm leaves the parameters, which are the results.
          rw [if_pos hz, helse] at hf0
          rw [if_neg (not_not_intro hz), length_append, length_reverse, length_known,
            Nat.add_comm, ← hsame]
          exact ⟨f0, hf0, hlead⟩
        · rw [if_neg hz] at hin
          rw [if_pos hz]
          have harm := ihy ((hl.held hrest).cons (hsc.inner .ifThen type label label (some other)))
            (hb.cons hlen) hs (by rwa [Scope.length_inner])
          exact (harm.leaving hc hlen hend).of_leads hlead
      · exact ih (hl.held (reverse_known_append hrest)) hb (hs.trans (hkeep.ok hx)) hf1
  | @ifElse os sc bt type rest yes no next first second label other p p1 p2 p3 sc' p' ht hp hjump
      hy hc1 hover helse hno hc2 hend hn ihy ihno ih =>
      have hsc := hl _ mem_cons_self
      obtain ⟨hrest, hcount⟩ := Scope.split_of_live hsc hp
      rw [hcount, length_append, ← Nat.add_assoc] at hf
      have hbt := hf.1.blockType ht
      obtain ⟨v, st0, rfl, f0, hf0, hlead⟩ := hf.choose hjump s
      obtain ⟨hin, hlen⟩ := enter_scope hf0
      have hlive := hsc.inner .ifThen type label label (some other)
      have hout := hl.held hrest
      have hkeep := keeps_inScope (.ite (P := v.asI32 ≠ 0)
        (Code.keeps_run hkeeps fuel yes (st0.holding (st0.operands.take type.params.length)))
        (Code.keeps_run hkeeps fuel no (st0.holding (st0.operands.take type.params.length))))
        type.results.length (st0.operands.drop type.params.length)
      rw [Code.run, hbt]
      refine Follows.bind (R := MirrorsWith w.site belows.flatten p3
        ((known type.results).reverse ++ rest).length) ?_ fun st1 f1 s1 hx hf1 => ?_
      · show Follows _ _ _ _ _ (inScope _ _ (if v.asI32 ≠ 0 then _ else _ : Run State) s)
        by_cases hz : v.asI32 = 0
        · rw [if_pos hz, helse] at hin
          rw [if_neg (not_not_intro hz)]
          have harm := ihno (hout.cons (.toElse hlive.kept)) (hb.cons hlen) hs
            (by rwa [Scope.length_toElse])
          exact (harm.leaving hc2 hlen hend).of_leads hlead
        · rw [if_neg hz] at hin
          rw [if_pos hz]
          have harm := ihy (hout.cons hlive) (hb.cons hlen) hs (by rwa [Scope.length_inner])
          -- Behind the first arm the machine jumps over the second.
          have hjumped := harm.thenLeads (Q := fun st f => first.unreachable = false ∧
            MirrorsWith w.site _ p3 first.operands.length st f) (by
              rintro st1 f1 s1 ⟨hu, @⟨values1, slots1, ops1, hs1⟩, hops1⟩
              rcases hover with ⟨hu', -⟩ | ⟨-, hget, -⟩
              · cases hu.symm.trans hu'
              · exact ⟨_, ⟨hu, .intro hs1, hops1⟩, hend ▸ (Spot.leadsOn_next hget rfl).leads⟩)
          exact (hjumped.leaving hc1 hlen hend).of_leads hlead
      · exact ih (hl.held (reverse_known_append hrest)) hb (hs.trans (hkeep.ok hx)) hf1

end Wasm
