import Wasm.Module.Body
import Wasm.Proofs.Binary.Grammar
import Wasm.Proofs.Lowering.Labels
import Wasm.Proofs.Validation.Soundness

/-! # Which bodies are accepted

Those in the grammar whose code is lowered (`Decode.body_eq_ok`). -/

namespace Wasm

open List

variable {c' : Cursor} {ctx : BodyContext} {funcIndex : Nat} {i : Instr} {os : List Scope}
  {refs : Array (Nat × Nat)} {noted : List Nat} {accessors' : Accessors}

/-! ## Locals -/

open LocalSlot (layout width)

theorem addLocals_layout (type : ValueType) (count : Nat) (ts : List ValueType) :
    addLocals type count (layout ts, width ts) =
      (layout (ts ++ List.replicate count type), width (ts ++ List.replicate count type)) := by
  induction count generalizing ts with
  | zero => rw [addLocals, replicate_zero, append_nil]
  | succ count ih =>
    have hpush : (layout ts).push ⟨type, width ts⟩ = layout (ts ++ [type]) := by
      rw [layout, layout, LocalSlot.layoutFrom_append, Nat.zero_add, push_toArray]
      rfl
    have hwidth : width ts + type.slotWidth = width (ts ++ [type]) := by
      rw [LocalSlot.width_append]
      rfl
    rw [addLocals, hpush, hwidth, ih, append_assoc, singleton_append, replicate_succ]

theorem paramLocals_eq (params : List ValueType) :
    paramLocals params = (layout params, width params) := by
  have hfold : ∀ ps ts : List ValueType,
      ps.foldl (fun state type => addLocals type 1 state) (layout ts, width ts) =
        (layout (ts ++ ps), width (ts ++ ps)) := by
    intro ps
    induction ps with
    | nil => intro ts; rw [foldl_nil, append_nil]
    | cons p ps ih =>
      intro ts
      rw [foldl_cons, addLocals_layout, ih, append_assoc]
      rfl
  exact hfold params []

/-- A group of locals: their number and their type. -/
def LocalGroup.Form (bs : List UInt8) (group : Nat × ValueType) : Prop :=
  ∃ bs1, bs = bs1 ++ [group.2.code] ∧ Leb128.Unsigned 32 bs1 group.1

namespace Decode

theorem Reads.group : Reads (do return (← Decode.u32, ← Decode.valueType)) LocalGroup.Form := by
  refine (Reads.u32.bind fun count => Reads.valueType.bind fun type =>
    Reads.pure (count, type)).congr fun bs group => ?_
  constructor
  · rintro ⟨bs1, _, count, rfl, hc, bs2, _, type, rfl, rfl, rfl, rfl⟩
    exact ⟨bs1, by rw [append_nil], hc⟩
  · rintro ⟨bs1, rfl, hc⟩
    exact ⟨bs1, [group.2.code], group.1, rfl, hc, [group.2.code], [], group.2,
      (append_nil _).symm, rfl, rfl, rfl⟩

theorem Reads.localGroup (state : Array LocalSlot × Nat) :
    Reads (localGroup state) fun bs state' => ∃ group, LocalGroup.Form bs group ∧
      state.1.size + group.1 ≤ maxLocals ∧ state' = addLocals group.2 group.1 state := by
  refine Reads.position fun at_ => ?_
  refine (Reads.u32.bind fun count => Reads.valueType.bind fun type =>
    (Reads.pure (addLocals type count state)).guard _ _).congr fun bs state' => ?_
  constructor
  · rintro ⟨bs1, _, count, rfl, hc, bs2, _, type, rfl, rfl, hle, rfl, rfl⟩
    exact ⟨(count, type), ⟨bs1, by rw [append_nil], hc⟩, hle, rfl⟩
  · rintro ⟨⟨count, type⟩, ⟨bs1, rfl, hc⟩, hle, rfl⟩
    exact ⟨bs1, [type.code], count, rfl, hc, [type.code], [], type,
      (append_nil _).symm, rfl, hle, rfl, rfl⟩

theorem inTurn_localGroup {params : List ValueType} {groups : List (Nat × ValueType)} :
    InTurn (fun before group => (params ++ LocalGroup.types before).length + group.1 ≤ maxLocals)
      groups ↔ (groups ≠ [] → (params ++ LocalGroup.types groups).length ≤ maxLocals) := by
  have hlength : ∀ before group, (params ++ LocalGroup.types (before ++ [group])).length =
      (params ++ LocalGroup.types before).length + group.1 := by
    intro before group
    simp [LocalGroup.types, Nat.add_assoc]
  constructor
  · intro h hne
    obtain ⟨before, group, rfl⟩ := eq_nil_or_concat groups |>.resolve_left hne
    rw [concat_eq_append, hlength]
    exact h before group (concat_eq_append ▸ prefix_rfl)
  · rintro h before group ⟨behind, rfl⟩
    have hall := h (by simp)
    rw [← hlength]
    refine Nat.le_trans ?_ hall
    simp [LocalGroup.types]

theorem Reads.locals (n : Nat) (params : List ValueType) :
    Reads (Decode.fold Decode.localGroup n (paramLocals params)) fun bs state => ∃ groups,
      groups.length = n ∧ Each LocalGroup.Form groups bs ∧
      (groups ≠ [] → (params ++ LocalGroup.types groups).length ≤ maxLocals) ∧
      state = (layout (params ++ LocalGroup.types groups),
        width (params ++ LocalGroup.types groups)) := by
  have hsnoc : ∀ groups group, params ++ LocalGroup.types groups ++ List.replicate group.1 group.2 =
      params ++ LocalGroup.types (groups ++ [group]) := by
    intro groups group
    simp [LocalGroup.types]
  have hstep : ∀ groups, Reads (Decode.localGroup (layout (params ++ LocalGroup.types groups),
      width (params ++ LocalGroup.types groups))) fun bs state =>
        ∃ group, LocalGroup.Form bs group ∧
        (params ++ LocalGroup.types groups).length + group.1 ≤ maxLocals ∧
        state = (layout (params ++ LocalGroup.types (groups ++ [group])),
          width (params ++ LocalGroup.types (groups ++ [group]))) := by
    intro groups
    refine (Reads.localGroup _).congr fun bs state => exists_congr fun group => ?_
    rw [LocalSlot.size_layout, addLocals_layout, hsnoc]
  have hread := Reads.entries (D := fun groups => (layout (params ++ LocalGroup.types groups),
    width (params ++ LocalGroup.types groups))) hstep n
  simp only [inTurn_localGroup] at hread
  rwa [LocalGroup.types, flatMap_nil, append_nil, ← paramLocals_eq] at hread

/-! ## Instructions -/

theorem charge_eq_ok {α : Type} {offset : Nat} {x : Except Fault α} {a : α} {c : Cursor} :
    charge offset x c = .ok a c' ↔ x = .ok a ∧ c' = c := by
  cases x with
  | ok b =>
    constructor
    · intro h; cases h; exact ⟨rfl, rfl⟩
    · rintro ⟨h, rfl⟩; cases h; rfl
  | error fault =>
    constructor
    · intro h; cases h
    · rintro ⟨h, -⟩; cases h

end Decode

variable {at_ : Nat} {s : BodyState} {st : ControlStack} {accessors : Accessors}

theorem BodyState.step_eq_ok {e : Emission} (hr : s.stack.Ready) :
    (∃ refs, s.step ctx at_ i = .ok ⟨st, e, refs⟩) ↔
      i.check ctx s.emission.asm.labels.size s.stack = .ok () st ∧
      e = i.emit ctx s.stack s.emission := by
  unfold step
  cases hc : i.check ctx s.emission.asm.labels.size s.stack with
  | ok _ stack =>
    simp only [Instr.lower_eq hr hc]
    constructor
    · rintro ⟨refs, h⟩; cases h; exact ⟨rfl, rfl⟩
    · rintro ⟨h, rfl⟩; cases h; exact ⟨_, rfl⟩
  | error fault stack =>
    constructor
    · rintro ⟨refs, h⟩; cases h
    · rintro ⟨h, -⟩; cases h

def BodyContext.pending (ctx : BodyContext) (l : List Instr) : List Nat :=
  if ctx.dataCount = none then l.filterMap Instr.dataIndex? else []

theorem BodyContext.pending_cons (ctx : BodyContext) (i : Instr) (l : List Instr) :
    ctx.pending (i :: l) = ctx.pending [i] ++ ctx.pending l := by
  unfold pending
  split
  · rw [← filterMap_append, singleton_append]
  · rfl

theorem BodyState.step_dataRefs {s' : BodyState} (h : s.step ctx at_ i = .ok s') :
    s'.dataRefs.toList.map Prod.fst = s.dataRefs.toList.map Prod.fst ++ ctx.pending [i] := by
  unfold step at h
  split at h
  · cases h
  · obtain ⟨e, -, h⟩ := except_bind_eq_ok.mp h
    cases h
    cases hc : ctx.dataCount with
    | some count => simp [BodyContext.pending, hc]
    | none => cases hi : i.dataIndex? <;> simp [BodyContext.pending, hc, hi]

theorem Instr.check_scopes {n : Nat} {sc : Scope} (h : i.check ctx n ⟨[], sc :: os⟩ = .ok () st) :
    (∃ sc' os', st = ⟨[], sc' :: os'⟩) ∨ st.scopes = [] := by
  cases Instr.check_iff.mp h with
  | last _ _ => exact .inr rfl
  | _ => exact .inl ⟨_, _, rfl⟩

namespace Decode

theorem instr_form_length {bs : List UInt8} (h : Instr.Form bs i) : 0 < bs.length := by
  obtain ⟨code, imm, rfl, -⟩ := h
  exact Nat.succ_pos _

theorem instructions_eq_ok {fuel : Nat} {sc : Scope} {e e' : Emission} {st' : ControlStack}
    {c : Cursor} (hm : Scope.AllMarked (sc :: os)) (hfuel : c.remaining ≤ fuel) :
    (∃ refs', instructions ctx fuel ⟨⟨[], sc :: os⟩, e, refs⟩ c = .ok ⟨st', e', refs'⟩ c' ∧
        refs'.toList.map Prod.fst = noted) ↔
      ∃ l bs, Each Instr.Form l bs ∧ c.Over bs c' ∧ Passes ctx l ⟨[], sc :: os⟩ e st' e' ∧
        st'.scopes = [] ∧ noted = refs.toList.map Prod.fst ++ ctx.pending l := by
  induction fuel generalizing sc os e refs c with
  | zero =>
    constructor
    · rintro ⟨refs', h, -⟩; cases h
    · rintro ⟨l, bs, he, ho, hp, hend, -⟩
      cases hp with
      | nil => cases hend
      | cons =>
        cases he with
        | @cons _ _ bs bs' hi _ =>
          have := instr_form_length hi
          have hl := congrArg List.length ho.left
          rw [Cursor.length_left, length_append, length_append] at hl
          omega
  | succ fuel ih =>
    unfold instructions
    constructor
    · rintro ⟨refs', h, hnoted⟩
      obtain ⟨at_, c1, hpos, h1⟩ := bind_eq_ok.mp h
      cases hpos
      obtain ⟨i, c2, hi, h2⟩ := bind_eq_ok.mp h1
      obtain ⟨bs, hform, ho⟩ := (Reads.instr _ _ _).mp hi
      obtain ⟨s1, c3, hs, h3⟩ := bind_eq_ok.mp h2
      obtain ⟨hstep, rfl⟩ := charge_eq_ok.mp hs
      obtain ⟨st1, e1, refs1⟩ := s1
      have hrefs := BodyState.step_dataRefs hstep
      obtain ⟨hc, rfl⟩ := (BodyState.step_eq_ok ⟨_, _, rfl, hm⟩).mp ⟨refs1, hstep⟩
      rcases Instr.check_ready ⟨_, _, rfl, hm⟩ hc with ⟨sc', os', rfl, hm'⟩ | hnil
      · have hlen : c3.remaining ≤ fuel := by
          have := instr_form_length hform
          have hl := congrArg List.length ho.left
          rw [length_append, Cursor.length_left, Cursor.length_left] at hl
          omega
        obtain ⟨l, bs', he, ho', hp, hend, rfl⟩ := (ih hm' hlen).mp ⟨refs', h3, hnoted⟩
        refine ⟨i :: l, bs ++ bs', .cons hform he, ho.trans ho', .cons hc hp, hend, ?_⟩
        rw [hrefs, ctx.pending_cons i l, append_assoc]
      · rw [hnil] at h3
        cases h3
        exact ⟨[i], bs ++ [], .cons hform .nil, ho.trans (.refl _), .cons hc .nil, hnil,
          hnoted.symm.trans hrefs⟩
    · rintro ⟨l, bs, he, ho, hp, hend, hnoted⟩
      cases hp with
      | nil => cases hend
      | @cons i l _ _ _ st1 _ _ hc hl =>
        cases he with
        | @cons _ _ bs bs' hform he =>
          obtain ⟨c1, ho1, ho2⟩ := ho.split
          have hi := (Reads.instr c i c1).mpr ⟨bs, hform, ho1⟩
          have hpos : position c = .ok c.position c := rfl
          obtain ⟨refs1, hstep⟩ := (@BodyState.step_eq_ok ctx i c.position
            ⟨⟨[], sc :: os⟩, e, refs⟩ st1 (i.emit ctx ⟨[], sc :: os⟩ e) ⟨_, _, rfl, hm⟩).mpr
              ⟨hc, rfl⟩
          have hs := (@charge_eq_ok c1 _ c.position _ _ c1).mpr ⟨hstep, rfl⟩
          have hrefs := BodyState.step_dataRefs hstep
          cases hl with
          | nil =>
            refine ⟨refs1, ?_, hrefs.trans hnoted.symm⟩
            rw [bind_of_ok hpos, bind_of_ok hi, bind_of_ok hs]
            cases he
            rw [ho2.unique (.refl _), hend]
            rfl
          | cons hc' hl =>
            have hlen : c1.remaining ≤ fuel := by
              have := instr_form_length hform
              have hl := congrArg List.length ho1.left
              rw [length_append, Cursor.length_left, Cursor.length_left] at hl
              omega
            have hnoted' := hnoted
            rw [ctx.pending_cons, ← append_assoc, ← hrefs] at hnoted'
            have hm' := (Instr.check_turns hc).1.allMarked hm
            obtain ⟨refs', h, hfound⟩ :=
              (ih hm' hlen).mpr ⟨_, bs', he, ho2, .cons hc' hl, hend, hnoted'⟩
            refine ⟨refs', ?_, hfound⟩
            rw [bind_of_ok hpos, bind_of_ok hi, bind_of_ok hs]
            exact h

end Decode

/-! ## Bodies -/

namespace Body

/-- Groups of locals, and instructions with the last `end`. -/
def Form (bs : List UInt8) (body : Body) : Prop :=
  ∃ bs0 bs1 bs2, bs = bs0 ++ (bs1 ++ bs2) ∧ Leb128.Unsigned 32 bs0 body.groups.length ∧
    Decode.Each LocalGroup.Form body.groups bs1 ∧
    Decode.Each Instr.Form (body.code.instrs ++ [.endScope]) bs2

/-- What the code of a body is checked against. -/
def context (ctx : BodyContext) (params : List ValueType) (body : Body) : BodyContext :=
  { ctx with locals := layout (body.localTypes params) }

end Body

/-- The scope of a function at the start of its body. -/
def Scope.function (results : List ValueType) : Scope :=
  ⟨.function, [], results, ⟨0⟩, ⟨0⟩, none, false, false, []⟩

theorem Scope.function_kind_ne (results : List ValueType) :
    (Scope.function results).kind ≠ .ifThen := by
  intro h
  cases h

theorem Scope.allMarked_function (results : List ValueType) : AllMarked [Scope.function results] :=
  forall_mem_singleton.mpr fun hmem => absurd hmem not_mem_nil

/-- The start of the code of a function. -/
def Emission.start (funcIndex : Nat) (type : FuncType) (types : List ValueType)
    (accessors : Accessors) : Emission where
  asm := ⟨funcIndex, type, layout types, #[], #[none]⟩
  accessors := accessors
  nextSlot := width types
  scratch := []

def Emission.empty (funcIndex : Nat) (type : FuncType) (locals : Array LocalSlot)
    (accessors : Accessors) (nextSlot : Nat) : Emission :=
  ⟨.start funcIndex type locals, accessors, nextSlot, []⟩

section Function

variable {c : Code} {results : List ValueType} {nextSlot : Nat} {type : FuncType}
  {locals : Array LocalSlot} {accessors : Accessors} {sc : Scope} {e : Emission}

theorem Code.Lowers.builds_function {D : Emission → BasicOp → Prop} {T : Label → Prop}
    (h : c.Lowers ctx [] (Scope.function results)
      (Emission.empty funcIndex type locals accessors nextSlot).newLabel.2 sc e)
    (hD : Emission.Admits D)
    (hop : ∀ i ∈ c.instrs, ∀ {labels unr ops unr' ops'},
      Instr.Moves ctx labels i unr ops unr' ops' →
      ∀ (e : Emission) op, i.Yields ctx e.accessors op → D e op) :
    Emission.Builds D T (.empty funcIndex type locals accessors nextSlot) [] (sc.emitEnd e) := by
  refine h.builds_end (h.builds hD hop fun _ => ?_) hD rfl (.newLabel .refl) (.inl rfl)
  exact forall_mem_singleton.mpr (.inl rfl)

theorem Code.Lowers.exists_link (h : c.Lowers ctx [] (Scope.function results)
      (Emission.empty funcIndex type locals accessors nextSlot).newLabel.2 sc e) :
    (∃ code, (sc.emitEnd e).asm.link = .ok code) ∧
      ∃ bound, (Assembly.start funcIndex type locals).Binds bound (sc.emitEnd e).asm := by
  have hb := @builds_function ctx funcIndex c results nextSlot type locals accessors sc e _
    (fun _ => False) h Emission.admits_all fun _ _ _ _ _ _ _ _ _ _ _ => trivial
  exact ⟨hb.exists_link rfl, hb.exists_binds⟩

end Function

/-- A body is lowered to a function. -/
inductive Body.Compiles (ctx : BodyContext) (funcIndex : Nat) (accessors : Accessors)
    (body : Body) : CompiledFunction → Accessors → Prop
  | intro {type sc e func} (ht : ctx.spaces.funcType funcIndex = .ok type)
      (hmax : body.groups ≠ [] → (body.localTypes type.params).length ≤ maxLocals)
      (hl : body.code.Lowers (body.context ctx type.params) [] (Scope.function type.results)
        (Emission.start funcIndex type (body.localTypes type.params) accessors) sc e)
      (hc : sc.Closes) (hf : (sc.emitEnd e).asm.finish (sc.emitEnd e).nextSlot = .ok func) :
      Compiles ctx funcIndex accessors body func (sc.emitEnd e).accessors

theorem Body.Compiles.keys {body : Body} {func : CompiledFunction}
    (h : body.Compiles ctx funcIndex accessors func accessors') :
    accessors.keys.toList <+: accessors'.keys.toList := by
  cases h with
  | intro ht hmax hl hc hf =>
    rw [Scope.accessors_emitEnd]
    exact hl.emission_extends.keys

namespace Decode

variable {c : Cursor} {accessors : Accessors} {func : CompiledFunction}

theorem unless_isEmpty_eq_ok {α : Type} {d : Decode α} {a : α} :
    (do unless ← isEmpty do fail .trailingBytes (← position)
        d) c = .ok a c' ↔ c.left = [] ∧ d c = .ok a c' := by
  rw [← c.isEmpty_iff, bind_of_ok (show isEmpty c = .ok c.isEmpty c from rfl)]
  cases c.isEmpty with
  | true => exact ⟨fun h => ⟨rfl, h⟩, fun h => h.2⟩
  | false =>
    constructor
    · intro h; cases h
    · rintro ⟨h, -⟩; cases h

theorem body_eq_ok_noting :
    (∃ refs', body ctx funcIndex accessors refs c = .ok (func, accessors', refs') c' ∧
        refs'.toList.map Prod.fst = noted) ↔
      ∃ b : Body, b.Form c.left ∧ c.Over c.left c' ∧
        b.Compiles ctx funcIndex accessors func accessors' ∧
        noted = refs.toList.map Prod.fst ++ ctx.pending (b.code.instrs ++ [.endScope]) := by
  unfold body
  constructor
  · rintro ⟨refs', h, hnoted⟩
    obtain ⟨at_, c0, hpos, h0⟩ := bind_eq_ok.mp h
    cases hpos
    obtain ⟨type, c1, htype, h1⟩ := bind_eq_ok.mp h0
    obtain ⟨ht, rfl⟩ := charge_eq_ok.mp htype
    obtain ⟨n, c2, hn, h2⟩ := bind_eq_ok.mp h1
    obtain ⟨bs0, hcount, ho0⟩ := (Reads.u32 _ _ _).mp hn
    obtain ⟨state, c3, hlocals, h3⟩ := bind_eq_ok.mp h2
    obtain ⟨bs1, ⟨groups, rfl, hgroups, hmax, rfl⟩, ho1⟩ := (Reads.locals _ _ _ _ _).mp hlocals
    obtain ⟨cur, c4, hget, h4⟩ := bind_eq_ok.mp h3
    cases hget
    obtain ⟨⟨st, e, refs1⟩, c5, hins, h5⟩ := bind_eq_ok.mp h4
    obtain ⟨l, bs2, hl, ho2, hp, hend, hrefs⟩ :=
      (instructions_eq_ok (Scope.allMarked_function _) (Nat.le_refl _)).mp ⟨_, hins, rfl⟩
    obtain ⟨code, rfl⟩ := hp.exists_code (Scope.function_kind_ne _) hend
    obtain ⟨sc, e1, hlow, hcl, rfl, rfl⟩ := (passes_body (Scope.function_kind_ne _)).mp hp
    obtain ⟨hnil, h6⟩ := unless_isEmpty_eq_ok.mp h5
    obtain ⟨f, c6, hfin, h7⟩ := bind_eq_ok.mp h6
    obtain ⟨hf, rfl⟩ := charge_eq_ok.mp hfin
    cases h7
    have ho := ho0.trans (ho1.trans ho2)
    have hleft := ho.left
    rw [hnil, append_nil] at hleft
    refine ⟨⟨groups, code⟩, ?_, hleft ▸ ho, .intro ht hmax hlow hcl hf, hnoted.symm.trans hrefs⟩
    exact ⟨bs0, bs1, bs2, hleft, hcount, hgroups, hl⟩
  · rintro ⟨⟨groups, code⟩, ⟨bs0, bs1, bs2, hleft, hcount, hgroups, hl⟩, ho, hcomp, rfl⟩
    cases hcomp with
    | @intro type sc e _ ht hmax hlow hcl hf =>
      have hnil : c'.left = [] := by simpa using ho.left
      rw [hleft] at ho
      obtain ⟨c1, ho0, ho⟩ := ho.split
      obtain ⟨c2, ho1, ho2⟩ := ho.split
      have hpos : position c = .ok c.position c := rfl
      have htype := (@charge_eq_ok c _ c.position _ _ c).mpr ⟨ht, rfl⟩
      have hn := (Reads.u32 c groups.length c1).mpr ⟨bs0, hcount, ho0⟩
      have hlocals := (Reads.locals groups.length type.params c1 _ c2).mpr
        ⟨bs1, ⟨groups, rfl, hgroups, hmax, rfl⟩, ho1⟩
      have hp := (passes_body (Scope.function_kind_ne _)).mpr ⟨sc, e, hlow, hcl, rfl, rfl⟩
      obtain ⟨refs', hins, hnoted⟩ :=
        (@instructions_eq_ok _ _ _ refs _ _ _ _ _ _ _ (Scope.allMarked_function _)
          (Nat.le_refl _)).mpr
          ⟨_, bs2, hl, ho2, hp, rfl, rfl⟩
      have hfin := (@charge_eq_ok c' _ 0 _ _ c').mpr ⟨hf, rfl⟩
      refine ⟨refs', ?_, hnoted⟩
      rw [bind_of_ok hpos, bind_of_ok htype, bind_of_ok hn, bind_of_ok hlocals]
      refine (bind_of_ok hins).trans (unless_isEmpty_eq_ok.mpr ⟨hnil, ?_⟩)
      rw [bind_of_ok hfin]
      rfl

theorem body_eq_ok :
    (∃ refs', body ctx funcIndex accessors refs c = .ok (func, accessors', refs') c') ↔
      ∃ b : Body, b.Form c.left ∧ c.Over c.left c' ∧
        b.Compiles ctx funcIndex accessors func accessors' := by
  constructor
  · rintro ⟨refs', h⟩
    obtain ⟨b, hform, ho, hcomp, -⟩ := body_eq_ok_noting.mp ⟨refs', h, rfl⟩
    exact ⟨b, hform, ho, hcomp⟩
  · rintro ⟨b, hform, ho, hcomp⟩
    obtain ⟨refs', h, -⟩ := (@body_eq_ok_noting _ _ _ refs _ _ _ _ _).mpr ⟨b, hform, ho, hcomp, rfl⟩
    exact ⟨refs', h⟩

end Decode

theorem Body.exists_compiles_iff {b : Body} :
    (∃ func accessors', b.Compiles ctx funcIndex accessors func accessors') ↔
      ∃ type : FuncType, ctx.spaces.funcType funcIndex = .ok type ∧
        (b.groups ≠ [] → (b.localTypes type.params).length ≤ maxLocals) ∧
        b.code.HasType (b.context ctx type.params) type.results [type.results] []
          (known type.results) := by
  constructor
  · rintro ⟨func, accessors', hcomp⟩
    cases hcomp with
    | @intro type sc e _ ht hmax hl hc hf =>
      have hfinal := Scope.closes_iff.mp hc
      rw [hl.results_eq] at hfinal
      obtain ⟨v, hv, htype⟩ := hl.hasType rfl rfl hfinal
      rw [@Operand.Admits.eq_known [] v hv] at htype
      exact ⟨type, ht, hmax, htype⟩
  · rintro ⟨type, ht, hmax, htype⟩
    obtain ⟨sc, e, hl, ha⟩ := htype.lowers rfl [] (Scope.function type.results)
      (Emission.start funcIndex type (b.localTypes type.params) accessors) rfl .nil
    obtain ⟨code, hlink⟩ := hl.exists_link.1
    have hf : ∃ func, (sc.emitEnd e).asm.finish (sc.emitEnd e).nextSlot = .ok func := by
      unfold Assembly.finish
      rw [hlink]
      exact ⟨_, rfl⟩
    obtain ⟨func, hf⟩ := hf
    exact ⟨func, _, .intro ht hmax hl (hl.closes ha) hf⟩

/-- **A function body is accepted exactly when it is well typed**: groups of locals within the
    limit, and instructions of type `[] → results`. -/
theorem Decode.body_accepted_iff_hasType (ctx : BodyContext) (funcIndex : Nat)
    (accessors : Accessors) (refs : Array (Nat × Nat)) (c : Cursor) :
    (∃ result c', body ctx funcIndex accessors refs c = .ok result c') ↔
      ∃ (type : FuncType) (b : Body), ctx.spaces.funcType funcIndex = .ok type ∧ b.Form c.left ∧
        (b.groups ≠ [] → (b.localTypes type.params).length ≤ maxLocals) ∧
        b.code.HasType (b.context ctx type.params) type.results [type.results] []
          (known type.results) := by
  constructor
  · rintro ⟨⟨func, accessors', refs'⟩, c', h⟩
    obtain ⟨b, hform, -, hcomp⟩ := body_eq_ok.mp ⟨refs', h⟩
    obtain ⟨type, ht, hmax, htype⟩ := Body.exists_compiles_iff.mp ⟨func, accessors', hcomp⟩
    exact ⟨type, b, ht, hform, hmax, htype⟩
  · rintro ⟨type, b, ht, hform, hmax, htype⟩
    obtain ⟨func, accessors', hcomp⟩ := Body.exists_compiles_iff.mpr ⟨type, ht, hmax, htype⟩
    obtain ⟨c', ho⟩ := c.exists_over_left
    obtain ⟨refs', h⟩ := body_eq_ok.mpr ⟨b, hform, ho, hcomp⟩
    exact ⟨_, _, h⟩

end Wasm
