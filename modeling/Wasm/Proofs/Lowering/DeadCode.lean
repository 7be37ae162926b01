import Wasm.Proofs.Lowering.Passing
import Wasm.Proofs.Lowering.Recast

/-! # Code behind an unconditional transfer

It leaves only labels that nothing refers to (`Passes.without_dead`). -/

namespace Wasm

open List

variable {sc : Scope} {st : ControlStack} {first : Nat} {between : List (Option Nat)}
  {l : List Instr}

variable {ctx : BodyContext} {os : List Scope} {st' : ControlStack} {e e' : Emission} {i : Instr}
  {n : Nat}

/-! ## Labels in between -/

def Recast.inserting (first : Nat) (between : List (Option Nat)) (h : 0 < first) : Recast where
  op := id
  accessors := id
  first := first
  between := between
  op_eq _ _ := rfl
  first_pos := h

namespace Recast

variable {h : 0 < first}

theorem ops_of_lt {op : Op Label} (hop : ∀ l ∈ op.targets, l.id < first) :
    (inserting first between h).ops op = op := by
  have heq : ∀ l ∈ op.targets, (inserting first between h).label l = l :=
    fun l hl => label_of_lt _ (hop l hl)
  cases op with
  | basic op => rfl
  | jump target | jumpIf target | jumpUnless target =>
    exact congrArg _ (heq target mem_cons_self)
  | jumpTable targets default =>
    have hall : targets.map (inserting first between h).label = targets := by
      apply Array.ext'
      rw [Array.toList_map]
      exact (map_congr_left fun l hl => heq l (mem_append_left _ hl)).trans (map_id' _)
    rw [ops, hall, heq default (mem_append_right _ mem_cons_self)]

theorem scope_of_lt (hsc : sc.label.id < first ∧ sc.EndsBefore first) :
    (inserting first between h).scope sc = sc := by
  obtain ⟨kind, params, results, label, endLabel, elseLabel, unreachable, dead, operands⟩ := sc
  obtain ⟨hlabel, hend, helse⟩ := hsc
  have hother : elseLabel.map (inserting first between h).label = elseLabel := by
    cases elseLabel with
    | none => rfl
    | some other => exact congrArg some (label_of_lt _ (helse other rfl))
  unfold scope
  rw [hother, label_of_lt _ hlabel, label_of_lt _ hend]

theorem stack_of_lt (between : List (Option Nat)) (h : 0 < first)
    (hst : ∀ sc ∈ st.scopes, sc.label.id < first ∧ sc.EndsBefore first) :
    (inserting first between h).stack st = st := by
  obtain ⟨base, scopes⟩ := st
  unfold stack
  rw [map_congr_left fun sc hsc => scope_of_lt (hst sc hsc), map_id']

theorem emission_eq_of_quiet (hm : Made st e) (hq : e.Quiet e') (hx : e.Extends e')
    (h : 0 < e.asm.labels.size) :
    (inserting e.asm.labels.size (e'.asm.labels.toList.drop e.asm.labels.size) h).emission e =
      e' := by
  have hcode : e.asm.code.map (inserting e.asm.labels.size
      (e'.asm.labels.toList.drop e.asm.labels.size) h).ops = e'.asm.code := by
    apply Array.ext'
    rw [Array.toList_map, hq.code]
    exact (map_congr_left fun op hop => ops_of_lt fun l hl => hm.code op hop l hl).trans (map_id' _)
  have htake : e.asm.labels.toList = e'.asm.labels.toList.take e.asm.labels.size := by
    apply ext_getElem?
    intro i
    by_cases hi : i < e.asm.labels.size
    · rw [getElem?_take_of_lt hi, Array.getElem?_toList, Array.getElem?_toList, hx.labels i hi]
    · rw [getElem?_eq_none (by simpa using hi), getElem?_eq_none (by simp; omega)]
  have hlabels : (inserting e.asm.labels.size
      (e'.asm.labels.toList.drop e.asm.labels.size) h).labels e.asm.labels = e'.asm.labels := by
    apply Array.ext'
    show e.asm.labels.toList.take e.asm.labels.size ++
      (e'.asm.labels.toList.drop e.asm.labels.size ++
        e.asm.labels.toList.drop e.asm.labels.size) = e'.asm.labels.toList
    have hdrop : e.asm.labels.toList.drop e.asm.labels.size = [] :=
      drop_of_length_le (Nat.le_of_eq Array.length_toList)
    rw [hdrop, append_nil, take_of_length_le (Nat.le_of_eq Array.length_toList), htake]
    exact take_append_drop _ _
  show Emission.mk ⟨e.asm.funcIndex, e.asm.type, e.asm.locals, e.asm.code.map (inserting _ _ h).ops,
    (inserting _ _ h).labels e.asm.labels⟩ e.accessors e.nextSlot e.scratch = e'
  rw [hcode, hlabels, ← hx.header.1, ← hx.header.2.1, ← hx.header.2.2, ← hq.nextSlot, ← hq.scratch,
    ← hq.accessors]

end Recast

/-! ## Passing with labels in between -/

namespace Recast

variable (r : Recast)

theorem branchTypes_map (scopes : List Scope) :
    (scopes.map r.scope).map Scope.branchTypes = scopes.map Scope.branchTypes := by
  rw [map_map]
  rfl

theorem check_eq_ok (h : r.first ≤ n) :
    i.check ctx (n + r.between.length) (r.stack ⟨[], sc :: os⟩) = .ok () st' ↔
      ∃ st, i.check ctx n ⟨[], sc :: os⟩ = .ok () st ∧ st' = r.stack st := by
  have hlabel : (⟨n + r.between.length⟩ : Label) = r.label ⟨n⟩ := (r.label_of_le (l := ⟨n⟩) h).symm
  have hnext : (⟨n + r.between.length + 1⟩ : Label) = r.label ⟨n + 1⟩ := by
    rw [r.label_of_le (l := ⟨n + 1⟩) (Nat.le_succ_of_le h), Nat.add_right_comm]
  show i.check ctx (n + r.between.length) ⟨[], r.scope sc :: os.map r.scope⟩ = .ok () st' ↔ _
  simp only [Instr.check_iff]
  constructor
  · intro hc
    generalize hos : os.map r.scope = os' at hc
    cases hc with
    | plain hi hm =>
      subst hos
      rw [← map_cons, branchTypes_map] at hm
      exact ⟨_, .plain hi hm, rfl⟩
    | block ht hp =>
      subst hos
      exact ⟨_, .block ht hp, by rw [Scope.block, hlabel]; rfl⟩
    | loop ht hp =>
      subst hos
      exact ⟨_, .loop ht hp, by rw [Scope.loop, hlabel, hnext]; rfl⟩
    | ifThen ht hp =>
      subst hos
      exact ⟨_, .ifThen ht hp, by rw [Scope.ifThen, hlabel, hnext]; rfl⟩
    | elseArm hk hcl =>
      subst hos
      exact ⟨_, .elseArm hk hcl, rfl⟩
    | endScope hk hcl =>
      obtain ⟨o, os, rfl, rfl, rfl⟩ := map_eq_cons_iff.mp hos
      exact ⟨_, .endScope hk hcl, rfl⟩
    | last hk hcl =>
      cases map_eq_nil_iff.mp hos
      exact ⟨_, .last hk hcl, rfl⟩
  · rintro ⟨st, hc, rfl⟩
    cases hc with
    | plain hi hm =>
      refine .plain hi ?_
      rw [← map_cons, branchTypes_map]
      exact hm
    | block ht hp =>
      have hb := @Instr.Checks.block ctx (n + r.between.length) _ _ _ (r.scope sc)
        (os.map r.scope) ht hp
      rw [Scope.block, hlabel] at hb
      exact hb
    | loop ht hp =>
      have hb := @Instr.Checks.loop ctx (n + r.between.length) _ _ _ (r.scope sc)
        (os.map r.scope) ht hp
      rw [Scope.loop, hlabel, hnext] at hb
      exact hb
    | ifThen ht hp =>
      have hb := @Instr.Checks.ifThen ctx (n + r.between.length) _ _ _ (r.scope sc)
        (os.map r.scope) ht
        hp
      rw [Scope.ifThen, hlabel, hnext] at hb
      exact hb
    | elseArm hk hcl => exact .elseArm hk hcl
    | endScope hk hcl => exact .endScope hk hcl
    | last hk hcl => exact .last hk hcl

end Recast

section Inserting

variable {hpos : 0 < first}

theorem Recast.accessor?_inserting (kind : AccessKind) (arg : MemArg) (e : Emission) :
    ((inserting first between hpos).emission e).accessor? ctx kind arg =
      (e.accessor? ctx kind arg).map fun p =>
        (p.1, (inserting first between hpos).emission p.2) := by
  unfold Emission.accessor?
  split <;> rfl

theorem Recast.emit_inserting (ctx : BodyContext) (i : Instr) (st : ControlStack)
    (between : List (Option Nat)) (hpos : 0 < first) (h : first ≤ e.asm.labels.size) :
    i.emit ctx ((inserting first between hpos).stack st)
      ((inserting first between hpos).emission e) =
      (inserting first between hpos).emission (i.emit ctx st e) := by
  refine (inserting first between hpos).emit ctx ctx.useAccessors st h fun _ hi => ?_
  cases i with
  | load access arg =>
    rw [Instr.emitReachable, Instr.emitReachable, accessor?_inserting]
    cases e.accessor? ctx (.load access) arg with
    | none => exact emit_ops _ e (.basic _)
    | some p => exact emit_ops _ p.2 (.basic _)
  | store access arg =>
    rw [Instr.emitReachable, Instr.emitReachable, accessor?_inserting]
    cases e.accessor? ctx (.store access) arg with
    | none => exact emit_ops _ e (.basic _)
    | some p => exact emit_ops _ p.2 (.basic _)
  | _ => cases hi

theorem Passes.of_inserting (h : first ≤ e.asm.labels.size)
    (hp : Passes ctx l ((Recast.inserting first between hpos).stack st)
      ((Recast.inserting first between hpos).emission e) st' e') :
    ∃ st1 e1, Passes ctx l st e st1 e1 ∧ first ≤ e1.asm.labels.size ∧
      st' = (Recast.inserting first between hpos).stack st1 ∧
      e' = (Recast.inserting first between hpos).emission e1 := by
  induction l generalizing st e with
  | nil =>
    cases hp
    exact ⟨st, e, .nil, h, rfl, rfl⟩
  | cons i l ih =>
    obtain ⟨base, scopes⟩ := st
    cases scopes with
    | nil => cases hp
    | cons sc os =>
      cases base with
      | cons o base => cases hp
      | nil =>
        obtain ⟨st1, hc, hl⟩ := passes_cons.mp hp
        rw [Recast.size_labels_emission] at hc
        obtain ⟨st2, hc2, rfl⟩ := (Recast.check_eq_ok _ h).mp hc
        have hemit := Recast.emit_inserting ctx i ⟨[], sc :: os⟩ between hpos h
        have hle := Nat.le_trans h (i.heads_emit ctx ⟨[], sc :: os⟩ e).labels_le
        obtain ⟨st3, e3, hrest, hle3, hst, he⟩ := ih hle (hemit ▸ hl)
        exact ⟨st3, e3, .cons hc2 hrest, hle3, hst, he⟩

end Inserting

/-! ## Leaving out what cannot be reached -/

/-- Whether an instruction always goes elsewhere. -/
def Instr.isTransfer : Instr → Bool
  | .unreachable | .br _ | .brTable .. | .ret => true
  | _ => false

theorem Instr.isPlain_of_isTransfer (h : i.isTransfer = true) : i.isPlain = true := by
  cases i <;> first | rfl | exact nomatch h

variable {ops : List Operand} {before after : List Instr} {transfer close : Instr} {dead : Code}
  {bs : List UInt8} {b : Body}

theorem Instr.Moves.of_isTransfer {labels : List (List ValueType)} {unr unr' : Bool}
    {ops' : List Operand} (hi : i.isTransfer = true)
    (h : Instr.Moves ctx labels i unr ops unr' ops') : unr' = true ∧ ops' = [] := by
  cases h with
  | fixed hf _ => cases hf <;> cases hi
  | unreachable | br _ _ | ret _ _ | brTable _ _ _ _ => exact ⟨rfl, rfl⟩
  | brIf _ _ | drop _ | select _ _ _ _ _ | refIsNull _ _ => cases hi

theorem Operand.take?_true_nil (types : List ValueType) : take? true types [] = some [] := by
  induction types with
  | nil => rfl
  | cons type types ih => exact ih

theorem Passes.drop_operands (h : Passes ctx (i :: l) ⟨[], sc.holding true ops :: os⟩ e st' e')
    (hi : i = .elseArm ∨ i = .endScope) :
    Passes ctx (i :: l) ⟨[], sc.holding true [] :: os⟩ e st' e' := by
  have hcloses : (sc.holding true []).Closes := Operand.take?_true_nil _
  obtain ⟨st1, hc, hl⟩ := passes_cons.mp h
  have hc := Instr.check_iff.mp hc
  rcases hi with rfl | rfl
  · cases hc with
    | plain hi => cases hi
    | elseArm hk _ => exact .cons (Instr.check_iff.mpr (.elseArm hk hcloses)) hl
  · cases hc with
    | plain hi => cases hi
    | endScope hk _ => exact .cons (Instr.check_iff.mpr (.endScope hk hcloses)) hl
    | last hk _ => exact .cons (Instr.check_iff.mpr (.last hk hcloses)) hl

theorem Passes.without_dead (hm : Made st e) (hpos : 0 < e.asm.labels.size)
    (ht : transfer.isTransfer = true) (hclose : close = .elseArm ∨ close = .endScope)
    (h : Passes ctx (before ++ transfer :: (dead.instrs ++ close :: after)) st e st' e') :
    ∃ (first : Nat) (between : List (Option Nat)) (hfirst : 0 < first) (st1 : ControlStack)
      (e1 : Emission), Passes ctx (before ++ transfer :: close :: after) st e st1 e1 ∧
        first ≤ e1.asm.labels.size ∧ st' = (Recast.inserting first between hfirst).stack st1 ∧
        e' = (Recast.inserting first between hfirst).emission e1 := by
  obtain ⟨st0, e0, hbefore, h⟩ := passes_append.mp h
  have hpos0 := Nat.lt_of_lt_of_le hpos hbefore.heads.labels_le
  have hm0 := hbefore.made hm
  cases h with
  | @cons _ _ sc os _ st1 _ _ hc h =>
    have hplain := Instr.isPlain_of_isTransfer ht
    have hpos2 := Nat.lt_of_lt_of_le hpos0 (transfer.heads_emit ctx ⟨[], sc :: os⟩ e0).labels_le
    have hm2 := hm0.step hc
    obtain ⟨unr, ops, hmoves, rfl⟩ := (Instr.check_eq_ok hplain).mp hc
    obtain ⟨rfl, rfl⟩ := hmoves.of_isTransfer ht
    obtain ⟨sc1, e1, hdead, h⟩ := passes_instrs_append.mp h
    have hsc := hdead.scope_eq
    rw [hdead.unreachable_of rfl] at hsc
    have hend : Passes ctx (close :: after) ⟨[], sc.holding true [] :: os⟩ e1 st' e' :=
      Passes.drop_operands (hsc ▸ h) hclose
    -- From here on the labels of the dead code are the only difference.
    have hquiet := hdead.quiet (Scope.isEmitting_eq_false.mpr (.inl rfl))
    have hrecast := Recast.emission_eq_of_quiet hm2 hquiet hdead.emission_extends hpos2
    have hstack := Recast.stack_of_lt
      (e1.asm.labels.toList.drop (transfer.emit ctx ⟨[], sc :: os⟩ e0).asm.labels.size) hpos2
      fun s hs => ⟨(hm2.scopes s hs).1, (hm2.scopes s hs).2.endsBefore⟩
    rw [← hrecast, ← hstack] at hend
    obtain ⟨st2, e2, hrest, hle, hst, he⟩ := Passes.of_inserting (Nat.le_refl _) hend
    refine ⟨_, _, hpos2, st2, e2, passes_append.mpr ⟨_, _, hbefore, .cons hc hrest⟩, hle, hst, he⟩

/-! ## Bodies -/

/-- The written forms of locals and instructions. -/
def Body.Listed (groups : List (Nat × ValueType)) (l : List Instr) (bs : List UInt8) : Prop :=
  ∃ bs0 bs1 bs2, bs = bs0 ++ (bs1 ++ bs2) ∧ Leb128.Unsigned 32 bs0 groups.length ∧
    Decode.Each LocalGroup.Form groups bs1 ∧ Decode.Each Instr.Form l bs2

theorem Body.form_iff :
    b.Form bs ↔ Body.Listed b.groups (b.code.instrs ++ [.endScope]) bs := Iff.rfl

theorem Body.Listed.inj {groups groups' : List (Nat × ValueType)} {l' : List Instr}
    (h : Body.Listed groups l bs) (h' : Body.Listed groups' l' bs) : groups = groups' ∧ l = l' := by
  obtain ⟨bs0, bs1, bs2, rfl, hcount, hgroups, hl⟩ := h
  obtain ⟨bs0', bs1', bs2', heq, hcount', hgroups', hl'⟩ := h'
  obtain ⟨hlen, heq⟩ := Decode.Reads.u32.append_inj hcount hcount' heq
  obtain ⟨rfl, rfl⟩ := (Decode.Reads.group.many groups.length).append_inj ⟨rfl, hgroups⟩
    ⟨hlen.symm, hgroups'⟩ heq
  refine ⟨rfl, hl.inj Decode.Reads.instr ?_ hl'⟩
  intro bs i hi
  exact ne_nil_of_length_pos (Decode.instr_form_length hi)

theorem Body.Compiles.without_dead {idx : Nat} {acc acc' : Accessors} {func : CompiledFunction}
    (h : b.Compiles ctx idx acc func acc')
    (hb : b.code.instrs ++ [.endScope] = before ++ transfer :: (dead.instrs ++ close :: after))
    (ht : transfer.isTransfer = true) (hclose : close = .elseArm ∨ close = .endScope) :
    ∃ code : Code, code.instrs ++ [.endScope] = before ++ transfer :: close :: after ∧
      Body.Compiles ctx idx acc ⟨b.groups, code⟩ func acc' := by
  obtain ⟨type, st, e, htype, hmax, hp, hf, rfl⟩ := Body.compiles_iff_passes.mp h
  have hend : st.scopes = [] := by
    obtain ⟨sc, e1, -, -, -, rfl⟩ := (passes_body (Scope.function_kind_ne _)).mp hp
    rfl
  rw [hb] at hp
  obtain ⟨first, between, hfirst, st1, e1, hp1, hle, rfl, rfl⟩ :=
    hp.without_dead (.start ..) Nat.zero_lt_one ht hclose
  obtain ⟨code, hcode⟩ := hp1.exists_code (Scope.function_kind_ne _) (map_eq_nil_iff.mp hend)
  have hf1 : e1.asm.finish e1.nextSlot = .ok func := by
    rw [Recast.finish _ hle] at hf
    have hid : Except.map (CompiledFunction.mapBasic id) (e1.asm.finish e1.nextSlot) =
      .ok func := hf
    cases hfin : e1.asm.finish e1.nextSlot with
    | error fault => rw [hfin] at hid; cases hid
    | ok func1 =>
      rw [hfin] at hid
      cases hid
      rw [CompiledFunction.mapBasic_id]
  refine ⟨code, hcode.symm, Body.compiles_iff_passes.mpr ⟨type, st1, e1, htype, hmax, ?_, hf1, rfl⟩⟩
  rw [← hcode]
  exact hp1

theorem Instr.emit_quiet (h : st.isEmitting = false)
    (hi : i = .elseArm ∨ i = .endScope → ∀ scope, st.innermost = .ok scope → scope.dead = true) :
    e.Quiet (i.emit ctx st e) := by
  have hrefl : e.Quiet e := ⟨rfl, rfl, rfl, rfl⟩
  have hnew : e.Quiet e.newLabel.2.newLabel.2 := ⟨rfl, rfl, rfl, rfl⟩
  have hskip : e.Quiet (if st.isEmitting then i.emitReachable ctx st e else e) := by
    rw [h]
    exact hrefl
  cases i with
  | block bt => exact ⟨rfl, rfl, rfl, rfl⟩
  | loop bt | ifThen bt =>
    show e.Quiet (if st.isEmitting then _ else e.newLabel.2.newLabel.2)
    rw [h]
    exact hnew
  | elseArm =>
    rw [Instr.emit]
    split
    · next scope hscope =>
        rw [Scope.emitElse, hi (.inl rfl) scope hscope]
        exact hrefl
    · exact hrefl
  | endScope =>
    rw [Instr.emit]
    split
    · next scope hscope =>
        rw [Scope.emitEnd, hi (.inr rfl) scope hscope]
        exact hrefl
    · exact hrefl
  | _ => exact hskip

/-- **Code that cannot be reached has no influence**: it emits nothing, and a body without it is
    compiled to the same function. -/
theorem Decode.body_without_dead_code (ctx : BodyContext) :
    (∀ (i : Instr) (stack : ControlStack) (e : Emission), stack.isEmitting = false →
      (i = .elseArm ∨ i = .endScope → ∀ scope, stack.innermost = .ok scope → scope.dead = true) →
      e.Quiet (i.emit ctx stack e)) ∧
    ∀ (funcIndex : Nat) (accessors accessors' : Accessors) (refs refs' : Array (Nat × Nat))
      (groups : List (Nat × ValueType)) (before after : List Instr) (transfer close : Instr)
      (dead : Code) (func : CompiledFunction) (c c' d : Cursor),
      transfer.isTransfer = true → close = .elseArm ∨ close = .endScope →
      Body.Listed groups (before ++ transfer :: (dead.instrs ++ close :: after)) c.left →
      Body.Listed groups (before ++ transfer :: close :: after) d.left →
      body ctx funcIndex accessors refs c = .ok (func, accessors', refs') c' →
      ∃ refs'' d', body ctx funcIndex accessors refs d = .ok (func, accessors', refs'') d' := by
  refine ⟨fun i stack e h hi => Instr.emit_quiet h hi, ?_⟩
  intro funcIndex accessors accessors' refs refs' groups before after transfer close dead func
    c c' d ht hclose hc hd h
  obtain ⟨b, hform, -, hcomp⟩ := body_eq_ok.mp ⟨refs', h⟩
  obtain ⟨rfl, hb⟩ := (Body.form_iff.mp hform).inj hc
  obtain ⟨code, hcode, hcomp'⟩ := hcomp.without_dead hb ht hclose
  rw [← hcode] at hd
  obtain ⟨d', hover⟩ := d.exists_over_left
  obtain ⟨refs'', hbody⟩ := body_eq_ok.mpr ⟨⟨b.groups, code⟩, hd, hover, hcomp'⟩
  exact ⟨refs'', d', hbody⟩

deriving instance DecidableEq for CompiledFunction

def BodyContext.single : BodyContext where
  spaces := { IndexSpaces.empty with
    types := #[⟨[], [.i32]⟩], funcs := #[0], memories := #[⟨1, none⟩] }
  locals := #[]
  elemTypes := #[]
  dataCount := none
  useAccessors := true

def returnSeven : CompiledFunction :=
  ⟨0, ⟨[], [.i32]⟩, #[], 0, #[.basic (.i32Const 7), .jump 2, .basic .ret]⟩

/-- A block behind the return makes no difference. -/
theorem Decode.body_return_seven : (∃ refs c', body .single 0 .empty #[]
      (.ofBytes ⟨#[0x00, 0x41, 0x07, 0x0F, 0x02, 0x40, 0x41, 0x07,
      0x28, 0x02, 0x04, 0x1A, 0x0B, 0x0B]⟩ 0) = .ok (returnSeven, .empty, refs) c') ∧
    ∃ refs c', body .single 0 .empty #[] (.ofBytes ⟨#[0x00, 0x41, 0x07, 0x0F, 0x0B]⟩ 0) =
      .ok (returnSeven, .empty, refs) c' := by
  have hlong : ∃ refs c', body .single 0 .empty #[] (.ofBytes ⟨#[0x00, 0x41, 0x07, 0x0F, 0x02, 0x40,
      0x41, 0x07, 0x28, 0x02, 0x04, 0x1A, 0x0B, 0x0B]⟩ 0) = .ok (returnSeven, .empty, refs) c' := by
    have hresult : (match body .single 0 .empty #[] (.ofBytes ⟨#[0x00, 0x41, 0x07, 0x0F, 0x02, 0x40,
        0x41, 0x07, 0x28, 0x02, 0x04, 0x1A, 0x0B, 0x0B]⟩ 0) with
      | .ok (f, a, _) _ => some (f, a)
      | .error _ _ => none) = some (returnSeven, .empty) := by
      decide +kernel
    split at hresult
    · next f a refs c' hbody =>
        cases hresult
        exact ⟨refs, c', hbody⟩
    · cases hresult
  refine ⟨hlong, ?_⟩
  obtain ⟨refs, c', hbody⟩ := hlong
  have hnumber : ∀ (b : UInt8) (n : Nat), b.toNat < 128 → b.toNat = n →
    Leb128.Unsigned 32 [b] n := by
    rintro b n hb rfl
    exact ⟨hb, (by decide : 1 ≤ Leb128.maxGroups 32), Nat.mod_eq_of_lt hb,
      Nat.lt_of_lt_of_le hb (by decide)⟩
  have hseven : Instr.Form [0x41, 0x07] (.i32Const 7) :=
    ⟨0x41, [0x07], rfl, 7,
      ⟨(by decide : (7 : UInt8).toNat < 128), by decide, rfl, by decide, by decide⟩,
      rfl⟩
  have hload : Instr.Form [0x28, 0x02, 0x04] (.load (.full .i32) ⟨2, 0, 4⟩) :=
    ⟨0x28, [0x02, 0x04], rfl, .inl ⟨_, _, rfl,
      .first (hnumber 0x02 2 (by decide) rfl) rfl (hnumber 0x04 4 (by decide) rfl), rfl⟩⟩
  refine (body_without_dead_code .single).2 0 .empty .empty #[] refs [] [.i32Const 7]
    [] .ret .endScope
    (.block .empty (.plain (.i32Const 7) rfl (.plain (.load (.full .i32) ⟨2, 0, 4⟩) rfl
      (.plain .drop rfl .done))) .done)
    returnSeven _ c' _ rfl (.inr rfl) ?_ ?_ hbody
  · rw [Cursor.left_ofBytes]
    refine ⟨[0x00], [], [0x41, 0x07] ++ ([0x0F] ++ ([0x02, 0x40] ++ ([0x41, 0x07] ++
      ([0x28, 0x02, 0x04] ++ ([0x1A] ++ ([0x0B] ++ ([0x0B] ++ []))))))), rfl,
        hnumber 0x00 0 (by decide) rfl, .nil, ?_⟩
    exact .cons hseven (.cons ⟨0x0F, [], rfl, rfl, rfl⟩
      (.cons ⟨0x02, [0x40], rfl, .empty, .empty, rfl⟩
      (.cons hseven (.cons hload (.cons ⟨0x1A, [], rfl, rfl, rfl⟩ (.cons ⟨0x0B, [], rfl, rfl, rfl⟩
        (.cons ⟨0x0B, [], rfl, rfl, rfl⟩ .nil)))))))
  · rw [Cursor.left_ofBytes]
    refine ⟨[0x00], [], [0x41, 0x07] ++ ([0x0F] ++ ([0x0B] ++ [])), rfl,
      hnumber 0x00 0 (by decide) rfl, .nil, ?_⟩
    exact .cons hseven (.cons ⟨0x0F, [], rfl, rfl, rfl⟩ (.cons ⟨0x0B, [], rfl, rfl, rfl⟩ .nil))

end Wasm
