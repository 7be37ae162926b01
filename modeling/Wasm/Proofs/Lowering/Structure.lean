import Wasm.Proofs.Lowering.Totality

/-! # Lowering along the structure of code

`Code.Lowers` is the pass over a body along the structure of its code. -/

namespace Wasm

open List Instr Operand

variable {ctx : BodyContext}

/-- Instructions are checked and emitted in turn. -/
inductive Passes (ctx : BodyContext) :
    List Instr → ControlStack → Emission → ControlStack → Emission → Prop
  | nil {st e} : Passes ctx [] st e st e
  | cons {i l sc os e st1 st' e'} (hc : i.check ctx e.asm.labels.size ⟨[], sc :: os⟩ = .ok () st1)
      (hl : Passes ctx l st1 (i.emit ctx ⟨[], sc :: os⟩ e) st' e') :
      Passes ctx (i :: l) ⟨[], sc :: os⟩ e st' e'

/-- Code is lowered from `sc` and `e` to `sc'` and `e'`. -/
inductive Code.Lowers (ctx : BodyContext) :
    List Scope → Scope → Code → Emission → Scope → Emission → Prop
  | done {os sc e} : Lowers ctx os sc .done e sc e
  | plain {os sc i hi next unr ops e sc' e'}
      (hm : Instr.Moves ctx ((sc :: os).map Scope.branchTypes) i sc.unreachable sc.operands unr ops)
      (hn : Lowers ctx os (sc.holding unr ops) next (i.emit ctx ⟨[], sc :: os⟩ e) sc' e') :
      Lowers ctx os sc (.plain i hi next) e sc' e'
  | block {os sc bt type rest body next inner e e1 sc' e'} (ht : ctx.spaces.blockType bt = .ok type)
      (hp : take? sc.unreachable type.params.reverse sc.operands = some rest)
      (hb : Lowers ctx (sc.keeping rest :: os) (sc.block type e.asm.labels.size) body
        ((Instr.block bt).emit ctx ⟨[], sc :: os⟩ e) inner e1)
      (hc : inner.Closes)
      (hn : Lowers ctx os (sc.keeping ((known type.results).reverse ++ rest)) next
        (inner.emitEnd e1) sc' e') :
      Lowers ctx os sc (.block bt body next) e sc' e'
  | loop {os sc bt type rest body next inner e e1 sc' e'} (ht : ctx.spaces.blockType bt = .ok type)
      (hp : take? sc.unreachable type.params.reverse sc.operands = some rest)
      (hb : Lowers ctx (sc.keeping rest :: os) (sc.loop type e.asm.labels.size) body
        ((Instr.loop bt).emit ctx ⟨[], sc :: os⟩ e) inner e1)
      (hc : inner.Closes)
      (hn : Lowers ctx os (sc.keeping ((known type.results).reverse ++ rest)) next
        (inner.emitEnd e1) sc' e') :
      Lowers ctx os sc (.loop bt body next) e sc' e'
  | ifThen {os sc bt type rest yes next inner e e1 sc' e'}
      (ht : ctx.spaces.blockType bt = .ok type) (hsame : type.params = type.results)
      (hp : take? sc.unreachable (type.params ++ [ValueType.i32]).reverse sc.operands = some rest)
      (hy : Lowers ctx (sc.keeping rest :: os) (sc.ifThen type e.asm.labels.size) yes
        ((Instr.ifThen bt).emit ctx ⟨[], sc :: os⟩ e) inner e1)
      (hc : inner.Closes)
      (hn : Lowers ctx os (sc.keeping ((known type.results).reverse ++ rest)) next
        (inner.emitEnd e1) sc' e') :
      Lowers ctx os sc (.ifThen bt yes next) e sc' e'
  | ifElse {os sc bt type rest yes no next first second e e1 e2 sc' e'}
      (ht : ctx.spaces.blockType bt = .ok type)
      (hp : take? sc.unreachable (type.params ++ [ValueType.i32]).reverse sc.operands = some rest)
      (hy : Lowers ctx (sc.keeping rest :: os) (sc.ifThen type e.asm.labels.size) yes
        ((Instr.ifThen bt).emit ctx ⟨[], sc :: os⟩ e) first e1)
      (hc1 : first.Closes)
      (hno : Lowers ctx (sc.keeping rest :: os) first.toElse no
        (first.emitElse e1) second e2)
      (hc2 : second.Closes)
      (hn : Lowers ctx os (sc.keeping ((known type.results).reverse ++ rest)) next
        (second.emitEnd e2) sc' e') :
      Lowers ctx os sc (.ifElse bt yes no next) e sc' e'

theorem Code.Lowers.scope_eq {os sc c e sc' e'} (h : Code.Lowers ctx os sc c e sc' e') :
    sc' = sc.holding sc'.unreachable sc'.operands := by
  induction h with
  | done => rfl
  | plain _ _ ih | block _ _ _ _ _ _ ih | loop _ _ _ _ _ _ ih | ifThen _ _ _ _ _ _ _ ih
  | ifElse _ _ _ _ _ _ _ _ _ ih => exact ih

namespace Code.Lowers

variable {os : List Scope} {sc sc' : Scope} {c : Code} {e e' : Emission}

variable (h : Lowers ctx os sc c e sc' e')
include h

theorem kind_eq : sc'.kind = sc.kind := by
  rw [h.scope_eq]; rfl

theorem params_eq : sc'.params = sc.params := by
  rw [h.scope_eq]; rfl

theorem results_eq : sc'.results = sc.results := by
  rw [h.scope_eq]; rfl

theorem dead_eq : sc'.dead = sc.dead := by
  rw [h.scope_eq]; rfl

end Code.Lowers

/-! ## Passing the written form of code -/

theorem emit_elseArm (sc : Scope) (os : List Scope) (e : Emission) :
    Instr.elseArm.emit ctx ⟨[], sc :: os⟩ e = sc.emitElse e := rfl

theorem emit_endScope (sc : Scope) (os : List Scope) (e : Emission) :
    Instr.endScope.emit ctx ⟨[], sc :: os⟩ e = sc.emitEnd e := rfl

variable {e e' : Emission} {l : List Instr} {os : List Scope} {sc : Scope} {st' : ControlStack}

variable {i : Instr} {c : Code} {st : ControlStack}

theorem passes_cons : Passes ctx (i :: l) ⟨[], sc :: os⟩ e st' e' ↔
      ∃ st1, i.check ctx e.asm.labels.size ⟨[], sc :: os⟩ = .ok () st1 ∧
        Passes ctx l st1 (i.emit ctx ⟨[], sc :: os⟩ e) st' e' := by
  constructor
  · intro h
    cases h with
    | cons hc hl => exact ⟨_, hc, hl⟩
  · rintro ⟨st1, hc, hl⟩
    exact .cons hc hl

theorem passes_scope {inner o : Scope} (hpasses : ∀ {l : List Instr} {e : Emission},
      Passes ctx (c.instrs ++ l) ⟨[], inner :: o :: os⟩ e st' e' ↔
      ∃ last e1, c.Lowers ctx (o :: os) inner e last e1 ∧
      Passes ctx l ⟨[], last :: o :: os⟩ e1 st' e') :
    Passes ctx (c.instrs ++ .endScope :: l) ⟨[], inner :: o :: os⟩ e st' e' ↔
      ∃ last e1, c.Lowers ctx (o :: os) inner e last e1 ∧
        (inner.kind = .ifThen → inner.params = inner.results) ∧ last.Closes ∧
        Passes ctx l ⟨[], o.keeping ((known inner.results).reverse ++ o.operands) :: os⟩
          (last.emitEnd e1) st' e' := by
  rw [hpasses]
  constructor
  · rintro ⟨last, e1, hb, hl⟩
    obtain ⟨st1, hc, hl⟩ := passes_cons.mp hl
    cases check_iff.mp hc with
    | plain hi => cases hi
    | endScope hk hcl =>
      rw [hb.kind_eq, hb.params_eq, hb.results_eq] at hk
      rw [hb.results_eq] at hl
      exact ⟨last, e1, hb, hk, hcl, hl⟩
  · rintro ⟨last, e1, hb, hk, hcl, hl⟩
    rw [← hb.kind_eq, ← hb.params_eq, ← hb.results_eq] at hk
    rw [← hb.results_eq] at hl
    exact ⟨last, e1, hb, .cons (check_iff.mpr (.endScope hk hcl)) hl⟩

theorem passes_instrs_append : Passes ctx (c.instrs ++ l) ⟨[], sc :: os⟩ e st' e' ↔
      ∃ sc1 e1, c.Lowers ctx os sc e sc1 e1 ∧ Passes ctx l ⟨[], sc1 :: os⟩ e1 st' e' := by
  induction c generalizing l os sc e with
  | done =>
    constructor
    · intro h; exact ⟨sc, e, .done, h⟩
    · rintro ⟨sc1, e1, h, hl⟩; cases h; exact hl
  | plain i hi next ih =>
    rw [Code.instrs, cons_append, passes_cons]
    constructor
    · rintro ⟨st1, hc, hl⟩
      obtain ⟨unr, ops, hm, rfl⟩ := (Instr.check_eq_ok hi).mp hc
      obtain ⟨sc1, e1, hn, hl⟩ := ih.mp hl
      exact ⟨sc1, e1, .plain hm hn, hl⟩
    · rintro ⟨sc1, e1, h, hl⟩
      cases h with
      | plain hm hn =>
        exact ⟨_, (Instr.check_eq_ok hi).mpr ⟨_, _, hm, rfl⟩, ih.mpr ⟨sc1, e1, hn, hl⟩⟩
  | block bt body next ihb ih =>
    rw [Code.instrs, cons_append, append_assoc, cons_append, passes_cons]
    constructor
    · rintro ⟨st1, hc, hl⟩
      cases check_iff.mp hc with
      | plain hi => cases hi
      | block ht hp =>
        obtain ⟨inner, e1, hb, -, hcl, hl⟩ := (passes_scope ihb).mp hl
        obtain ⟨sc1, e2, hn, hl⟩ := ih.mp hl
        exact ⟨sc1, e2, .block ht hp hb hcl hn, hl⟩
    · rintro ⟨sc1, e2, h, hl⟩
      cases h with
      | block ht hp hb hcl hn =>
        refine ⟨_, check_iff.mpr (.block ht hp), (passes_scope ihb).mpr ⟨_, _, hb, ?_, hcl,
          ih.mpr ⟨sc1, e2, hn, hl⟩⟩⟩
        intro hk
        cases hk
  | loop bt body next ihb ih =>
    rw [Code.instrs, cons_append, append_assoc, cons_append, passes_cons]
    constructor
    · rintro ⟨st1, hc, hl⟩
      cases check_iff.mp hc with
      | plain hi => cases hi
      | loop ht hp =>
        obtain ⟨inner, e1, hb, -, hcl, hl⟩ := (passes_scope ihb).mp hl
        obtain ⟨sc1, e2, hn, hl⟩ := ih.mp hl
        exact ⟨sc1, e2, .loop ht hp hb hcl hn, hl⟩
    · rintro ⟨sc1, e2, h, hl⟩
      cases h with
      | loop ht hp hb hcl hn =>
        refine ⟨_, check_iff.mpr (.loop ht hp), (passes_scope ihb).mpr ⟨_, _, hb, ?_, hcl,
          ih.mpr ⟨sc1, e2, hn, hl⟩⟩⟩
        intro hk
        cases hk
  | ifThen bt yes next ihy ih =>
    rw [Code.instrs, cons_append, append_assoc, cons_append, passes_cons]
    constructor
    · rintro ⟨st1, hc, hl⟩
      cases check_iff.mp hc with
      | plain hi => cases hi
      | ifThen ht hp =>
        obtain ⟨inner, e1, hy, hk, hcl, hl⟩ := (passes_scope ihy).mp hl
        obtain ⟨sc1, e2, hn, hl⟩ := ih.mp hl
        exact ⟨sc1, e2, .ifThen ht (hk rfl) hp hy hcl hn, hl⟩
    · rintro ⟨sc1, e2, h, hl⟩
      cases h with
      | ifThen ht hsame hp hy hcl hn =>
        exact ⟨_, check_iff.mpr (.ifThen ht hp), (passes_scope ihy).mpr ⟨_, _, hy,
          fun _ => hsame, hcl, ih.mpr ⟨sc1, e2, hn, hl⟩⟩⟩
  | ifElse bt yes no next ihy ihno ih =>
    rw [Code.instrs, cons_append, append_assoc, cons_append, append_assoc, cons_append, passes_cons]
    constructor
    · rintro ⟨st1, hc, hl⟩
      cases check_iff.mp hc with
      | plain hi => cases hi
      | ifThen ht hp =>
        obtain ⟨first, e1, hy, hl⟩ := ihy.mp hl
        obtain ⟨st2, hc2, hl⟩ := passes_cons.mp hl
        cases check_iff.mp hc2 with
        | plain hi => cases hi
        | elseArm _ hcl1 =>
          obtain ⟨second, e2, hno, -, hcl2, hl⟩ := (passes_scope ihno).mp hl
          rw [Scope.toElse, hy.results_eq] at hl
          obtain ⟨sc1, e3, hn, hl⟩ := ih.mp hl
          exact ⟨sc1, e3, .ifElse ht hp hy hcl1 hno hcl2 hn, hl⟩
    · rintro ⟨sc1, e3, h, hl⟩
      cases h with
      | ifElse ht hp hy hcl1 hno hcl2 hn =>
        refine ⟨_, check_iff.mpr (.ifThen ht hp), ihy.mpr ⟨_, _, hy, ?_⟩⟩
        refine .cons (check_iff.mpr (.elseArm hy.kind_eq hcl1)) ?_
        refine (passes_scope ihno).mpr ⟨_, _, hno, ?_, hcl2, ?_⟩
        · intro hk
          cases hk
        · rw [Scope.toElse, hy.results_eq]
          exact ih.mpr ⟨sc1, e3, hn, hl⟩

/-! ## What passes is the written form of code -/

/-- Ends of scopes that may close open ones. -/
inductive Arm.Close : List Arm → List Scope → Prop
  | nil : Close [] []
  | cons {arm : Arm} {sc : Scope} {arms : List Arm} {os : List Scope}
      (h : sc.kind ≠ .ifThen → arm.other = none) (hs : Close arms os) :
      Close (arm :: arms) (sc :: os)

theorem Arm.Close.before {n : Nat} {arms : List Arm} (h : Arm.Close arms st.scopes)
    (hc : i.check ctx n ⟨[], sc :: os⟩ = .ok () st) :
    ∃ arms', Arm.before arms i = some arms' ∧ Arm.Close arms' (sc :: os) := by
  cases check_iff.mp hc with
  | plain hi _ =>
    cases h with
    | @cons arm _ arms _ harm hs => exact ⟨_, Arm.before_plain hi _ _ _, .cons harm hs⟩
  | block _ _ | loop _ _ =>
    obtain _ | ⟨hin, _ | ⟨harm, hs⟩⟩ := h
    rename_i inner arms arm
    obtain ⟨body, other⟩ := inner
    cases hin (fun hk => nomatch hk)
    exact ⟨_, rfl, .cons harm hs⟩
  | ifThen _ _ =>
    obtain _ | ⟨-, _ | ⟨harm, hs⟩⟩ := h
    rename_i inner arms arm
    obtain ⟨yes, _ | no⟩ := inner
    · exact ⟨_, rfl, .cons harm hs⟩
    · exact ⟨_, rfl, .cons harm hs⟩
  | elseArm hk _ =>
    obtain _ | ⟨hin, hs⟩ := h
    rename_i inner arms
    obtain ⟨no, other⟩ := inner
    cases hin (fun hk => nomatch hk)
    exact ⟨_, rfl, .cons (fun hne => absurd hk hne) hs⟩
  | endScope _ _ =>
    obtain _ | ⟨harm, hs⟩ := h
    exact ⟨_, rfl, .cons (fun _ => rfl) (.cons harm hs)⟩
  | last _ _ => exact ⟨_, rfl, .cons (fun _ => rfl) h⟩

theorem Passes.exists_read (h : Passes ctx l st e st' e') (hend : st'.scopes = []) :
    ∃ arms, Arm.read l = some arms ∧ Arm.Close arms st.scopes := by
  induction h with
  | nil => exact ⟨[], rfl, hend ▸ .nil⟩
  | cons hc _ ih =>
    obtain ⟨arms, hr, hcl⟩ := ih hend
    obtain ⟨arms', hb, hcl'⟩ := hcl.before hc
    exact ⟨arms', by rw [Arm.read_cons hr, hb], hcl'⟩

theorem Passes.exists_code (hk : sc.kind ≠ .ifThen) (h : Passes ctx l ⟨[], [sc]⟩ e st' e')
    (hend : st'.scopes = []) : ∃ c : Code, l = c.instrs ++ [.endScope] := by
  obtain ⟨arms, hr, hcl⟩ := h.exists_read hend
  obtain _ | ⟨harm, _ | _⟩ := hcl
  rename_i arm
  obtain ⟨c, other⟩ := arm
  cases harm hk
  exact ⟨c, Arm.read_eq_some.mp hr⟩

theorem passes_body (hk : sc.kind ≠ .ifThen) :
    Passes ctx (c.instrs ++ [.endScope]) ⟨[], [sc]⟩ e st' e' ↔
      ∃ sc1 e1, c.Lowers ctx [] sc e sc1 e1 ∧ sc1.Closes ∧ e' = sc1.emitEnd e1 ∧
        st' = ⟨(known sc.results).reverse, []⟩ := by
  rw [passes_instrs_append]
  constructor
  · rintro ⟨sc1, e1, hl, h⟩
    obtain ⟨st1, hc, hnil⟩ := passes_cons.mp h
    cases check_iff.mp hc with
    | plain hi => cases hi
    | last _ hcl =>
      cases hnil
      exact ⟨sc1, e1, hl, hcl, rfl, by rw [hl.results_eq]⟩
  · rintro ⟨sc1, e1, hl, hcl, rfl, rfl⟩
    have hk1 : sc1.kind = .ifThen → sc1.params = sc1.results :=
      fun h => absurd (hl.kind_eq ▸ h) hk
    refine ⟨sc1, e1, hl, .cons (check_iff.mpr (.last hk1 hcl)) ?_⟩
    rw [hl.results_eq]
    exact .nil

end Wasm
