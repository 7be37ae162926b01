import Wasm.Proofs.Typed.Tracking

/-! # Branches keep to what is tracked

The views in front of the operations of a branch say what each slot was set to. -/

namespace Wasm

open List Emission
open Assembly (place)
open Shape (one ones)
open LocalSlot (typeAt? layout width Retains)

variable {front : List LocalSlot} {m : Module} {func : CompiledFunction} {b : View} {q : Nat}
  {e : Emission} {sc : Scope} {os : List Scope}

variable {slot depth : Nat} {scopes : List Scope} {target : Scope}

/-! ## Slots -/

namespace LocalSlot

theorem exists_of_typeAt?_layout {types : List ValueType} {type : ValueType}
    (h : typeAt? (layout types).toList slot = some type) :
    ∃ (i : Nat) (entry : LocalSlot), (layout types)[i]? = some entry ∧ entry.slot = slot ∧
      entry.type = type := by
  obtain ⟨entry, hfind, rfl⟩ := Option.map_eq_some_iff.mp h
  have hslot : entry.slot = slot := by simpa using find?_some hfind
  obtain ⟨i, hi⟩ := getElem?_of_mem (mem_of_find?_eq_some hfind)
  rw [Array.getElem?_toList] at hi
  exact ⟨i, entry, hi, hslot, rfl⟩

theorem typeAt?_layout {types : List ValueType} {i : Nat} {entry : LocalSlot}
    (h : (layout types)[i]? = some entry) :
    typeAt? (layout types).toList entry.slot = some entry.type := by
  have hmem : entry ∈ (layout types).toList := by
    rw [← Array.getElem?_toList] at h
    exact mem_of_getElem? h
  obtain ⟨other, hfind⟩ : ∃ other,
      (layout types).toList.find? (fun other => other.slot = entry.slot) = some other :=
    Option.isSome_iff_exists.mp (find?_isSome.mpr ⟨entry, hmem, decide_eq_true rfl⟩)
  obtain ⟨j, hj⟩ := getElem?_of_mem (mem_of_find?_eq_some hfind)
  rw [Array.getElem?_toList] at hj
  have hslot : other.slot = entry.slot := by simpa using find?_some hfind
  obtain rfl := slot_injective hj h hslot
  cases hj.symm.trans h
  rw [typeAt?, hfind]
  rfl

theorem typeAt?_append_of_notMem {slots : List LocalSlot} (h : ∀ entry ∈ front, entry.slot ≠ slot) :
    typeAt? (front ++ slots) slot = typeAt? slots slot := by
  induction front with
  | nil => rfl
  | cons entry front ih =>
    obtain ⟨he, hfront⟩ := forall_mem_cons.mp h
    rw [cons_append, typeAt?_cons, if_neg he, ih hfront]

theorem forall₂_typeAt?_zipWith {types : List ValueType} {ss : List Nat} {slots : List LocalSlot}
    (hlen : types.length = ss.length) (hnd : ss.Nodup) (hfront : ∀ entry ∈ front, entry.slot ∉ ss) :
    Forall₂ (fun type slot =>
      typeAt? (front ++ (List.zipWith LocalSlot.mk types ss ++ slots)) slot = some type)
      types ss := by
  induction types generalizing ss front with
  | nil =>
    rw [length_eq_zero_iff.mp hlen.symm]
    exact .nil
  | cons type types ih =>
    obtain ⟨s, ss, rfl⟩ := exists_cons_of_length_eq_add_one hlen.symm
    obtain ⟨hs, hnd'⟩ := nodup_cons.mp hnd
    refine .cons ?_ ?_
    · rw [typeAt?_append_of_notMem fun entry he heq => hfront entry he (heq ▸ mem_cons_self),
        zipWith_cons_cons, cons_append, typeAt?_cons, if_pos rfl]
    · have hmore := @ih (front ++ [⟨type, s⟩]) ss (Nat.succ.inj hlen) hnd' ?_
      · rwa [append_assoc] at hmore
      · intro entry he hmem
        rcases mem_append.mp he with he | he
        · exact hfront entry he (mem_cons_of_mem _ hmem)
        · rw [mem_singleton.mp he] at hmem
          exact hs hmem

theorem Retains.scratch {slots slots' : List LocalSlot} (h : Retains slots slots')
    (types : List ValueType) {ss : List Nat} (hs : ∀ slot ∈ ss, typeAt? slots slot = none) :
    Retains slots (List.zipWith LocalSlot.mk types ss ++ slots') := by
  induction types generalizing ss with
  | nil => exact h
  | cons type types ih =>
    cases ss with
    | nil => exact h
    | cons s ss =>
      obtain ⟨hfresh, hss⟩ := forall_mem_cons.mp hs
      exact (ih hss).write fun type' htype => nomatch hfresh.symm.trans htype

end LocalSlot

/-! ## Runs of operations -/

/-- What operations make of a view in turn. -/
inductive BasicOp.AlterAll (m : Module) (func : CompiledFunction) :
    List BasicOp → View → View → Prop
  | nil {a} : AlterAll m func [] a a
  | cons {op ops a types slots c} (h : op.Alters m func.frameSlots a ⟨ones types, slots⟩)
      (hl : Retains func.locals.toList slots) (hs : AlterAll m func ops ⟨ones types, slots⟩ c) :
      AlterAll m func (op :: ops) a c

namespace BasicOp.AlterAll

variable {ops ops' : List BasicOp} {a c : View}

theorem append (h : AlterAll m func ops a b) (h' : AlterAll m func ops' b c) :
    AlterAll m func (ops ++ ops') a c := by
  induction h with
  | nil => exact h'
  | cons hop hl _ ih => exact .cons hop hl (ih h')

variable {types rest : List ValueType} {ss : List Nat} {slots : List LocalSlot}

theorem sets (hlen : types.length = ss.length) (hlt : ∀ slot ∈ ss, slot < func.frameSlots)
    (hfresh : ∀ slot ∈ ss, typeAt? func.locals.toList slot = none)
    (hl : Retains func.locals.toList slots) :
    AlterAll m func (ss.reverse.map .localSet) ⟨ones (types.reverse ++ rest), slots⟩
      ⟨ones rest, List.zipWith LocalSlot.mk types ss ++ slots⟩ := by
  induction types generalizing ss rest with
  | nil =>
    rw [length_eq_zero_iff.mp hlen.symm]
    exact .nil
  | cons type types ih =>
    have hall := hl.scratch (type :: types) hfresh
    obtain ⟨s, ss, rfl⟩ := exists_cons_of_length_eq_add_one hlen.symm
    obtain ⟨hs, hss⟩ := forall_mem_cons.mp hlt
    obtain ⟨-, hfresh'⟩ := forall_mem_cons.mp hfresh
    rw [reverse_cons, reverse_cons, map_append, append_assoc]
    exact (ih (Nat.succ.inj hlen) hss hfresh').append (.cons (.localSet hs) hall .nil)

theorem drops (hl : Retains func.locals.toList slots) :
    AlterAll m func (List.replicate types.length .drop) ⟨ones (types ++ rest), slots⟩
      ⟨ones rest, slots⟩ := by
  induction types with
  | nil => exact .nil
  | cons type types ih => exact .cons .drop hl ih

theorem gets (hl : Retains func.locals.toList slots)
    (h : Forall₂ (fun type slot => typeAt? slots slot = some type) types ss) :
    AlterAll m func (ss.map .localGet) ⟨ones rest, slots⟩
      ⟨ones (types.reverse ++ rest), slots⟩ := by
  induction h generalizing rest with
  | nil => exact .nil
  | @cons type slot types ss htype _ ih =>
    have hget : BasicOp.Alters m func.frameSlots (.localGet slot) ⟨ones rest, slots⟩
        ⟨ones (type :: rest), slots⟩ := .localGet htype
    rw [reverse_cons, append_assoc]
    exact .cons hget hl ih

theorem transfer {carried discarded : List ValueType} (hlen : carried.length = ss.length)
    (hnd : ss.Nodup) (hlt : ∀ slot ∈ ss, slot < func.frameSlots)
    (hfresh : ∀ slot ∈ ss, typeAt? func.locals.toList slot = none)
    (hl : Retains func.locals.toList slots) :
    AlterAll m func (transferOps ss discarded.length)
      ⟨ones (carried.reverse ++ (discarded ++ rest)), slots⟩
      ⟨ones (carried.reverse ++ rest), List.zipWith LocalSlot.mk carried ss ++ slots⟩ := by
  have hl' := hl.scratch carried hfresh
  exact (sets hlen hlt hfresh hl).append ((drops hl').append (gets hl'
    (LocalSlot.forall₂_typeAt?_zipWith hlen hnd (forall_mem_nil _))))

end BasicOp.AlterAll

namespace Translation

variable {T : Translation m func}

/-! ## The finished function -/

theorem code_eq : func.code = T.fin.asm.code.map (Op.relabel (place T.fin.asm.labels)) :=
  (Assembly.link_eq_ok.mp (Assembly.finish_eq_ok T.finish).2.2.2).2

theorem frameSlots_eq : func.frameSlots = T.fin.nextSlot := (Assembly.finish_eq_ok T.finish).2.2.1

theorem heads_fin : T.first.Heads T.fin :=
  T.lowers.emission_extends.heads.trans (T.last.heads_emitEnd T.emission)

theorem locals_eq : func.locals = layout (T.body.localTypes func.type.params) :=
  (Assembly.finish_eq_ok T.finish).2.1.trans T.heads_fin.header.2.2

theorem getElem?_code {op : Op Label} (h : T.fin.asm.code[q]? = some op) :
    func.code[q]? = some (op.relabel (place T.fin.asm.labels)) := by
  rw [T.code_eq, Array.getElem?_map, h]
  rfl

def base (T : Translation m func) : Nat := width (T.body.localTypes func.type.params)

theorem Remains.separate {l : List Instr} (h : T.Remains l scopes e) : e.Separate T.base := by
  obtain ⟨before, -, hb⟩ := h
  exact hb.heads.separate _ (Scratch.separate_nil _)

theorem typeAt?_of_base_le (h : T.base ≤ slot) : typeAt? func.locals.toList slot = none := by
  rw [Option.eq_none_iff_forall_ne_some]
  intro type htype
  rw [T.locals_eq] at htype
  obtain ⟨i, entry, hi, rfl, -⟩ := LocalSlot.exists_of_typeAt?_layout htype
  exact absurd (LocalSlot.slot_lt_width hi) (Nat.not_lt.mpr h)

/-! ## Places inside an instruction -/

variable {p : Point} {a : View}

theorem Inside.start_le (h : T.Inside p q a) : p.start ≤ q := by
  cases h with
  | start _ => exact Nat.le_refl _
  | next _ _ _ _ hlt _ => exact Nat.le_of_lt hlt

theorem flows_basic {op : BasicOp} (hop : T.fin.asm.code[q]? = some (.basic op))
    (h : op.Alters m func.frameSlots a b) (hs : T.Sound (q + 1) b) : T.Flows q a :=
  ⟨.basic op, _, getElem?_code hop, .basic h, forall_mem_singleton.mpr hs⟩

theorem Inside.basic (h : T.Inside p q a) {op : BasicOp}
    (hop : T.fin.asm.code[q]? = some (.basic op)) (ha : op.Alters m func.frameSlots a b)
    (hstop : q + 1 < p.stop T.ctx) : T.Inside p (q + 1) b :=
  .next h (getElem?_code hop) (.basic ha) (mem_singleton.mpr rfl) (Nat.lt_succ_of_le h.start_le)
    hstop

theorem Inside.flows_run (hp : p ∈ T.points) {ops : List BasicOp} (h : T.Inside p q a)
    (hcode : T.fin.CodeAt q (ops.map .basic)) (hrun : BasicOp.AlterAll m func ops a b)
    (hstop : q + ops.length < p.stop T.ctx)
    (hb : T.Inside p (q + ops.length) b → T.Flows (q + ops.length) b) : T.Flows q a := by
  induction hrun generalizing q with
  | nil => exact hb h
  | @cons op ops a types slots c ha hl _ ih =>
    obtain ⟨hop, hmore⟩ := hcode.cons
    have hsum : q + (op :: ops).length = q + 1 + ops.length := by
      rw [length_cons, Nat.add_comm ops.length, Nat.add_assoc]
    rw [hsum] at hstop hb
    have hin := h.basic hop ha (Nat.lt_of_le_of_lt (Nat.le_add_right _ _) hstop)
    refine flows_basic hop ha (Tracks.sound ⟨p, hp, ?_, hin⟩ ⟨.ones, hl⟩ (ih hin hmore hstop hb))
    exact Nat.lt_of_le_of_lt (Nat.le_add_right _ _) hstop

/-! ## Branches -/

def Targets (T : Translation m func) (scopes : List Scope) : Prop :=
  ∀ depth target, scopes[depth]? = some target → T.Starts (place T.fin.asm.labels target.label)
      (func.view (target.branchTypes.reverse ++ Scope.types (scopes.drop (depth + 1))))

theorem Targets.holding (h : T.Targets (sc :: os)) (unr : Bool) (ops : List Operand) :
    T.Targets (sc.holding unr ops :: os) := by
  intro depth target ht
  cases depth with
  | zero =>
    cases ht
    exact h 0 sc rfl
  | succ depth => exact h (depth + 1) target ht

theorem Targets.cons (h : T.Targets os) (hsc : T.Starts (place T.fin.asm.labels sc.label)
      (func.view (sc.branchTypes.reverse ++ Scope.types os))) :
    T.Targets (sc :: os) := by
  intro depth target ht
  cases depth with
  | zero =>
    cases ht
    exact hsc
  | succ depth => exact h depth target ht

theorem types_above (scopes : List Scope) (depth : Nat) : Scope.types scopes =
      Operand.types (Scope.above scopes depth) ++ Scope.types (scopes.drop (depth + 1)) := by
  rw [Scope.above, Scope.types, Scope.types, ← Operand.types_append, ← flatMap_append,
    take_append_drop]

theorem types_of_above {rest : List Operand} (hl : Scope.AllLive scopes)
    (hrest : Scope.above scopes depth = known target.branchTypes.reverse ++ rest) :
    Scope.types scopes = target.branchTypes.reverse ++
        (Operand.types rest ++ Scope.types (scopes.drop (depth + 1))) ∧
      Scope.surplus scopes depth target = (Operand.types rest).length := by
  have hknown : ∀ o ∈ rest, o ≠ .unknown := fun o ho =>
    hl.above depth o (hrest ▸ mem_append_right _ ho)
  constructor
  · rw [types_above scopes depth, hrest, Operand.types_append, Operand.types_known, append_assoc]
  · rw [Scope.surplus, hrest, length_append, length_known, length_reverse,
      Nat.add_sub_cancel_left, Operand.types, length_filterMap_type? hknown]

theorem Targets.sound_jump {rest : List Operand}
    (h : T.Targets scopes) (ht : scopes[depth]? = some target) (hl : Scope.AllLive scopes)
    (hrest : Scope.above scopes depth = known target.branchTypes.reverse ++ rest)
    (hzero : Scope.surplus scopes depth target = 0) :
    T.Sound (place T.fin.asm.labels target.label) (func.view (Scope.types scopes)) := by
  obtain ⟨htypes, hsurplus⟩ := types_of_above hl hrest
  rw [hzero] at hsurplus
  rw [length_eq_zero_iff.mp hsurplus.symm, nil_append] at htypes
  rw [htypes]
  exact .start (h depth target ht) (.refl _)

theorem Inside.flows_branch (hp : p ∈ T.points) {rest : List Operand}
    (h : T.Inside p e.asm.code.size (func.view (Scope.types scopes)))
    (ht : scopes[depth]? = some target) (hl : Scope.AllLive scopes) (htargets : T.Targets scopes)
    (hrest : Scope.above scopes depth = known target.branchTypes.reverse ++ rest)
    (hheads : (e.branch ⟨[], scopes⟩ depth).Heads T.fin)
    (hstop : (e.branch ⟨[], scopes⟩ depth).asm.code.size ≤ p.stop T.ctx)
    (hsep : e.Separate T.base) : T.Flows e.asm.code.size (func.view (Scope.types scopes)) := by
  obtain ⟨ss, hasm, hslots⟩ := e.branch_spec ht hl
  have hcode : T.fin.CodeAt e.asm.code.size
      (branchOps ss (Scope.surplus scopes depth target) target.label) :=
    .of_heads hheads (by rw [hasm])
  have hsize : (e.branch ⟨[], scopes⟩ depth).asm.code.size = e.asm.code.size +
      (branchOps ss (Scope.surplus scopes depth target) target.label).length := by
    rw [hasm, Array.size_append]
    rfl
  rw [hsize] at hstop
  unfold branchOps at hcode hstop
  split at hcode
  · next hzero =>
      -- Nothing is discarded: the branch is a jump.
      obtain ⟨hjump, -⟩ := hcode.cons
      exact ⟨_, _, getElem?_code hjump, .jump, forall_mem_singleton.mpr
        (htargets.sound_jump ht hl hrest hzero)⟩
  · next hsome =>
      obtain ⟨rfl, hmade⟩ := hslots hsome
      obtain ⟨htransfer, hmore⟩ := hcode.append
      obtain ⟨hjump, -⟩ := hmore.cons
      rw [length_map] at hjump
      rw [if_neg hsome, length_append, length_map, length_singleton] at hstop
      obtain ⟨htypes, hsurplus⟩ := types_of_above hl hrest
      have hb := scratchSlots_bounds hsep target.branchTypes
      have hfresh : ∀ slot ∈ (Emission.scratchSlots [] target.branchTypes e).1,
          typeAt? func.locals.toList slot = none :=
        fun slot hm => typeAt?_of_base_le (hb slot hm).1
      have hrun := @BasicOp.AlterAll.transfer m func (Scope.types (scopes.drop (depth + 1))) _ _
        target.branchTypes (Operand.types rest)
        (length_scratchSlots [] target.branchTypes e).symm
        (scratchSlots_nodup hsep _) (fun slot hm => by
          rw [T.frameSlots_eq]
          exact Nat.lt_of_lt_of_le (hb slot hm).2 (hmade.trans hheads).nextSlot) hfresh (.refl _)
      rw [htypes] at h ⊢
      rw [← hsurplus] at hrun
      refine h.flows_run hp htransfer hrun (by omega) fun _ => ?_
      refine ⟨_, _, getElem?_code hjump, .jump, forall_mem_singleton.mpr
        (.start (htargets depth target ht) ⟨rfl, (Retains.refl _).scratch _ hfresh⟩)⟩

/-! ## Conditional branches and branch tables -/

theorem Targets.sound_diverts (hp : p ∈ T.points) {start stop : Nat}
    {rest : List Operand} (htargets : T.Targets scopes)
    (h : Emission.Diverts T.fin T.base scopes depth start stop target q)
    (ht : scopes[depth]? = some target) (hl : Scope.AllLive scopes)
    (hrest : Scope.above scopes depth = known target.branchTypes.reverse ++ rest)
    (hstop : stop ≤ p.stop T.ctx)
    (hin : start < q → q < p.stop T.ctx → T.Inside p q (func.view (Scope.types scopes))) :
    T.Sound q (func.view (Scope.types scopes)) := by
  cases h with
  | jump hzero _ _ => exact htargets.sound_jump ht hl hrest hzero
  | @code e hsep hlt hheads hend =>
    have hle := Nat.le_trans hend hstop
    have hq := Nat.lt_of_lt_of_le (e.lt_size_branch ht hl) hle
    exact Tracks.sound ⟨p, hp, hq, hin hlt hq⟩ (func.admits_view _ _)
      ((hin hlt hq).flows_branch hp ht hl htargets hrest hheads hle hsep)

theorem Inside.flows_branchIf (hp : p ∈ T.points) {rest : List Operand}
    (h : T.Inside p e.asm.code.size (func.view (.i32 :: Scope.types (sc :: os))))
    (ht : (sc :: os)[depth]? = some target) (hl : Scope.AllLive (sc :: os))
    (htargets : T.Targets (sc :: os))
      (hops : sc.operands = known target.branchTypes.reverse ++ rest)
    (hk : (e.branchIf ⟨[], sc :: os⟩ depth).Kept T.fin)
    (hstop : (e.branchIf ⟨[], sc :: os⟩ depth).asm.code.size ≤ p.stop T.ctx)
    (hsep : e.Separate T.base)
    (hnext : T.Starts (e.branchIf ⟨[], sc :: os⟩ depth).asm.code.size
      (func.view (Scope.types (sc :: os)))) :
    T.Flows e.asm.code.size (func.view (.i32 :: Scope.types (sc :: os))) := by
  obtain ⟨rest', hrest⟩ := @Scope.exists_above sc _ os _ hops depth
  have hsound : T.Sound _ (func.view (Scope.types (sc :: os))) := .start hnext (.refl _)
  obtain ⟨label, ⟨hop, hsize, hq⟩ | ⟨hop, hskip, hq⟩⟩ := hk.branchIf ht hl hsep
  · rw [hsize] at hsound
    refine ⟨_, _, getElem?_code hop, .jumpIf, forall_mem_cons.mpr
      ⟨htargets.sound_diverts hp hq ht hl hrest hstop fun hlt hend => ?_,
        forall_mem_singleton.mpr hsound⟩⟩
    exact .next h (getElem?_code hop) .jumpIf mem_cons_self (Nat.lt_of_le_of_lt h.start_le hlt) hend
  · rw [← hskip] at hsound
    refine ⟨_, _, getElem?_code hop, .jumpUnless, forall_mem_cons.mpr
      ⟨hsound, forall_mem_singleton.mpr
        (htargets.sound_diverts hp hq ht hl hrest hstop fun hlt hend => ?_)⟩⟩
    exact .next h (getElem?_code hop) .jumpUnless (mem_cons_of_mem _ mem_cons_self)
      (Nat.lt_of_le_of_lt h.start_le hlt) hend

theorem Inside.flows_branchTable (hp : p ∈ T.points) {depths : List Nat} {default : Nat}
    (h : T.Inside p e.asm.code.size (func.view (.i32 :: Scope.types (sc :: os))))
    (ht : ∀ depth ∈ depths ++ [default], ∃ target rest, (sc :: os)[depth]? = some target ∧
      sc.operands = known target.branchTypes.reverse ++ rest)
    (hl : Scope.AllLive (sc :: os)) (htargets : T.Targets (sc :: os))
    (hk : (e.branchTable ⟨[], sc :: os⟩ depths default).Kept T.fin)
    (hstop : (e.branchTable ⟨[], sc :: os⟩ depths default).asm.code.size ≤ p.stop T.ctx)
    (hsep : e.Separate T.base) :
    T.Flows e.asm.code.size (func.view (.i32 :: Scope.types (sc :: os))) := by
  obtain ⟨labels, last, hop, hq⟩ := hk.branchTable hl hsep
  refine ⟨_, _, getElem?_code hop, .jumpTable, fun place' hplace => ?_⟩
  have hplaces : ((labels.toArray.map (place T.fin.asm.labels)).toList ++
      [place T.fin.asm.labels last]) = (labels ++ [last]).map (place T.fin.asm.labels) := by
    simp
  have hmem := hplace
  rw [hplaces, map_map] at hmem
  obtain ⟨label, hlabel, rfl⟩ := mem_map.mp hmem
  obtain ⟨i, rfl⟩ := exists_getD_eq hlabel
  -- The target at the index, or the default.
  have hdepth : depths[i]?.getD default ∈ depths ++ [default] :=
    mem_of_getElem? (getElem?_append_getD depths default i)
  obtain ⟨target, rest, htarget, hops⟩ := ht _ hdepth
  obtain ⟨rest', hrest⟩ := @Scope.exists_above sc _ os _ hops (depths[i]?.getD default)
  refine htargets.sound_diverts hp (hq i target htarget) htarget hl hrest hstop fun hlt hend => ?_
  exact .next h (getElem?_code hop) .jumpTable hplace (Nat.lt_of_le_of_lt h.start_le hlt) hend

end Translation

end Wasm
