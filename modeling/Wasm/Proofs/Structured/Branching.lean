import Wasm.Proofs.Lowering.DeadCode
import Wasm.Proofs.Lowering.Liveness
import Wasm.Proofs.Structured.Transfer

/-! # Branches of a body

Scratch slots are apart from locals, so each branch gets to its target. -/

namespace Wasm

open List Scope ControlStack LocalSlot
open Assembly (place IsBound)
open Machine (LeadsOn)
open LocalSlot (layout width)

variable {ctx : BodyContext} {funcIndex : Nat} {accessors : Accessors} {b : Body}
  {func : CompiledFunction} {fin e : Emission} {i : Instr} {st stack : ControlStack}
  {depth : Nat} {scopes : List Scope} {target : Scope}

/-! ## Points of a translation -/

namespace Body

/-- The translation has passed these instructions. -/
abbrev Begins (ctx : BodyContext) (funcIndex : Nat) (accessors : Accessors) (b : Body)
    (type : FuncType) (l : List Instr) (st : ControlStack) (e : Emission) : Prop :=
  Passes (b.context ctx type.params) l ⟨[], [function type.results]⟩
    (Emission.start funcIndex type (b.localTypes type.params) accessors) st e

/-- A body is translated to a function, by way of `fin`. -/
structure Translated (ctx : BodyContext) (funcIndex : Nat) (accessors : Accessors) (b : Body)
    (func : CompiledFunction) (fin : Emission) : Prop where
  type : ctx.spaces.funcType funcIndex = .ok func.type
  limit : b.groups ≠ [] → (b.localTypes func.type.params).length ≤ maxLocals
  begins : ∃ st, b.Begins ctx funcIndex accessors func.type (b.code.instrs ++ [.endScope]) st fin
  finish : fin.asm.finish fin.nextSlot = .ok func

/-- The translation of a body comes to an instruction. -/
def ComesTo (ctx : BodyContext) (funcIndex : Nat) (accessors : Accessors) (b : Body)
    (type : FuncType) (i : Instr) (st : ControlStack) (e : Emission) : Prop :=
  ∃ l l', b.code.instrs ++ [.endScope] = l ++ i :: l' ∧ b.Begins ctx funcIndex accessors type l st e

theorem Begins.separate {l : List Instr} {type : FuncType}
    (h : b.Begins ctx funcIndex accessors type l st e) :
    e.Separate (width (b.localTypes type.params)) :=
  h.heads.separate _ (Scratch.separate_nil _)

end Body

/-- The code of a branch, or a jump to its target. -/
inductive Emission.BranchIn (fin : Emission) (scopes : List Scope) (depth : Nat) (target : Scope)
    (start stop : Nat) : Prop
  | jump {op : Op Label} (hzero : surplus scopes depth target = 0)
      (hop : op ∈ fin.asm.code.toList) (hlabel : target.label ∈ op.targets)
  | code {e : Emission} (hle : start ≤ e.asm.code.size)
      (hheads : (e.branch ⟨[], scopes⟩ depth).Heads fin)
      (hstop : (e.branch ⟨[], scopes⟩ depth).asm.code.size ≤ stop)

variable {base start stop : Nat} {accessors' : Accessors}

theorem Emission.Diverts.branchIn {q : Nat}
    (h : Diverts fin base scopes depth start stop target q) :
    fin.BranchIn scopes depth target start stop := by
  cases h with
  | jump hzero hop hlabel => exact .jump hzero hop hlabel
  | code _ hlt hh hstop => exact .code (Nat.le_of_lt hlt) hh hstop

theorem Instr.GoesTo.branchIn (hg : i.GoesTo st stack depth) (hs : stack = ⟨[], scopes⟩)
    (ht : scopes[depth]? = some target) (hl : Scope.AllLive scopes) (hsep : e.Separate base)
    (hk : (i.emitReachable ctx st e).Kept fin) :
    fin.BranchIn scopes depth target e.asm.code.size (i.emitReachable ctx st e).asm.code.size := by
  cases hg with
  | br | ret =>
    subst hs
    exact .code (Nat.le_refl _) hk.heads (Nat.le_refl _)
  | brIf =>
    rw [Instr.emitReachable, hs] at hk ⊢
    obtain ⟨label, ⟨-, -, hq⟩ | ⟨-, -, hq⟩⟩ := hk.branchIf ht hl hsep
    · exact hq.branchIn
    · exact hq.branchIn
  | brTable hmem =>
    rw [Instr.emitReachable, hs] at hk ⊢
    obtain ⟨labels, last, -, hq⟩ := hk.branchTable hl hsep
    obtain ⟨n, rfl⟩ := Emission.exists_getD_eq hmem
    exact (hq n target ht).branchIn

theorem Emission.BranchIn.isBound {code : Array (Op Nat)}
    (h : fin.BranchIn scopes depth target start stop) (ht : scopes[depth]? = some target)
    (hl : Scope.AllLive scopes) (hlink : fin.asm.link = .ok code) :
    IsBound fin.asm.labels target.label := by
  have hbound := (Assembly.link_eq_ok.mp hlink).1
  cases h with
  | jump _ hop hlabel => exact hbound _ hop _ hlabel
  | @code e _ hheads _ =>
    obtain ⟨slots, hasm, -⟩ := e.branch_spec ht hl
    refine hbound (.jump target.label) (hheads.code.subset ?_) _ mem_cons_self
    rw [hasm, Array.toList_append]
    refine mem_append_right _ ?_
    unfold Emission.branchOps
    split <;> simp

theorem Emission.BranchIn.transfer {code : Array (Op Nat)}
    (h : fin.BranchIn scopes depth target start stop) (ht : scopes[depth]? = some target)
    (hl : Scope.AllLive scopes) (hlink : fin.asm.link = .ok code)
    (hsome : surplus scopes depth target ≠ 0) :
    ∃ slots p, slots.length = target.branchTypes.length ∧
      (∀ s ∈ scratchEntries [] target.branchTypes slots, s ∈ fin.scratch) ∧ start ≤ p ∧
      p + (transferOps slots (surplus scopes depth target)).length < stop ∧
      (transferOps slots (surplus scopes depth target)).map .basic <+: code.toList.drop p := by
  cases h with
  | jump hzero _ _ => exact absurd hzero hsome
  | @code e hle hheads hstop =>
    obtain ⟨slots, hasm, hslots⟩ := e.branch_spec ht hl
    obtain ⟨rfl, hmade⟩ := hslots hsome
    have hcode : fin.CodeAt e.asm.code.size _ := .of_heads hheads (by rw [hasm])
    have hsize := congrArg (fun asm : Assembly => asm.code.size) hasm
    simp only [Array.size_append, size_toArray] at hsize
    rw [branchOps, if_neg hsome] at hcode hsize
    rw [length_append, length_map, length_singleton] at hsize
    refine ⟨_, e.asm.code.size, length_scratchSlots [] target.branchTypes e, fun s hs => ?_,
      hle, by omega, ?_⟩
    · exact (hmade.trans hheads).scratch.subset (mem_scratchEntries _ _ _ s hs)
    · rw [(Assembly.link_eq_ok.mp hlink).2, Array.toList_map, ← map_drop]
      have hmap := hcode.append.1.map (Op.relabel (place fin.asm.labels))
      rwa [map_map] at hmap

theorem Body.Translated.branch (hT : b.Translated ctx funcIndex accessors func fin)
    (hc : b.ComesTo ctx funcIndex accessors func.type i st e) (hem : st.isEmitting = true)
    (hg : i.GoesTo st stack depth) :
    ∃ scopes target, stack = ⟨[], scopes⟩ ∧ Scope.AllLive scopes ∧ scopes[depth]? = some target ∧
      target.branchTypes.length ≤ (Scope.above scopes depth).length ∧
      e.Separate (width (b.localTypes func.type.params)) ∧
      (i.emitReachable (b.context ctx func.type.params) st e).Kept fin ∧
      fin.BranchIn scopes depth target e.asm.code.size
        (i.emitReachable (b.context ctx func.type.params) st e).asm.code.size ∧
      i.emit (b.context ctx func.type.params) st e =
        i.emitReachable (b.context ctx func.type.params) st e := by
  obtain ⟨l, l', hl, hp⟩ := hc
  obtain ⟨st', hall⟩ := hT.begins
  obtain ⟨sc, os, rfl, hlive⟩ := hp.exists_live hem
  have hsc := hlive sc mem_cons_self
  rw [Begins, hl, hp.append] at hall
  cases hall with
  | cons hc hrest =>
    have hk := hrest.kept ((hp.made (.start ..)).step hc)
    have hi : i.isPlain = true := by cases hg <;> rfl
    cases Instr.check_iff.mp hc with
    | plain _ hm =>
      rw [hsc.reachable] at hm
      obtain ⟨sc', target, rest, rfl, hlive', ht, hops⟩ := hm.goesTo hlive hg
      rw [Instr.emit_of_isPlain hi, if_pos hsc.isEmitting] at hk ⊢
      exact ⟨_, target, rfl, hlive', ht, le_above hops depth, hp.separate, hk,
        hg.branchIn rfl ht hlive' hp.separate hk, rfl⟩
    | _ => cases hi

/-! ## Slots -/

/-- Locals and scratch slots have their places in frames. -/
structure CompiledFunction.Arranges (func : CompiledFunction) (types : List ValueType)
    (scratch : List Scratch) : Prop where
  size : func.locals.size = types.length
  locals : ∀ (n : Nat) (entry : LocalSlot), func.locals[n]? = some entry →
    types[n]? = some entry.type ∧ entry.slot = width (types.take n)
  apart : (func.locals.toList ++ scratch.map Scratch.entry).Pairwise LocalSlot.Before
  below : ∀ entry ∈ func.locals.toList ++ scratch.map Scratch.entry,
    entry.slot + entry.type.slotWidth ≤ func.frameSlots
  keys : scratch.Pairwise fun s s' => ¬ (s.type = s'.type ∧ s.ordinal = s'.ordinal)

section

variable (hT : b.Translated ctx funcIndex accessors func fin)
include hT

theorem Body.Translated.locals_eq : func.locals = layout (b.localTypes func.type.params) := by
  obtain ⟨st, hp⟩ := hT.begins
  exact (Assembly.finish_eq_ok hT.finish).2.1.trans hp.heads.header.2.2

theorem Body.Translated.arranges :
    func.Arranges (b.localTypes func.type.params) fin.scratch.reverse := by
  obtain ⟨st, hp⟩ := hT.begins
  have hsep := Begins.separate hp
  have hslots := (Assembly.finish_eq_ok hT.finish).2.2.1
  have hlocals : func.locals.toList = layoutFrom 0 _ := congrArg Array.toList hT.locals_eq
  have hb := bounds_layoutFrom 0 (b.localTypes func.type.params)
  rw [← hlocals, Nat.zero_add] at hb
  refine ⟨?_, ?_, ?_, ?_, pairwise_reverse.mpr hsep.keys⟩
  · rw [hT.locals_eq, size_layout]
  · rw [hT.locals_eq]
    exact fun n entry => getElem?_layout
  · refine pairwise_append.mpr ⟨hlocals ▸ pairwise_layoutFrom _ _, ?_, ?_⟩
    · exact pairwise_map.mpr (pairwise_reverse.mpr hsep.apart)
    · intro entry hentry x hx
      obtain ⟨s, hs, rfl⟩ := mem_map.mp hx
      exact Nat.le_trans (hb entry hentry).2 (hsep.bounds s (mem_reverse.mp hs)).1
  · rw [hslots]
    refine forall_mem_append.mpr ⟨fun entry hentry => ?_, forall_mem_map.mpr fun s hs => ?_⟩
    · exact Nat.le_trans (hb entry hentry).2 hsep.base_le
    · exact (hsep.bounds s (mem_reverse.mp hs)).2

theorem Body.Translated.set_scratch {s : Scratch} (hs : s ∈ fin.scratch) {entry : LocalSlot}
    (hentry : entry ∈ func.locals.toList ∨ ∃ s' ∈ fin.scratch, s' ≠ s ∧ s'.entry = entry)
    (slots : Array Value) (v : Value) {n : Nat} (hle : entry.slot ≤ n)
    (hlt : n < entry.slot + entry.type.slotWidth) :
    (slots.setIfInBounds s.slot v)[n]? = slots[n]? := by
  have hapart : entry.Before s.entry ∨ s.entry.Before entry := by
    rcases hentry with hentry | ⟨s', hs', hne, rfl⟩
    · exact .inl ((pairwise_append.mp hT.arranges.apart).2.2 entry hentry _
        (mem_map_of_mem (mem_reverse.mpr hs)))
    · obtain ⟨st, hp⟩ := hT.begins
      exact hp.separate.before_or_before hs' hs hne
  have hpos := s.type.slotWidth_pos
  unfold LocalSlot.Before Scratch.entry at hapart
  dsimp only at hapart
  exact Array.getElem?_setIfInBounds_ne (by omega)

end

theorem Body.Compiles.translated (h : b.Compiles ctx funcIndex accessors func accessors') :
    ∃ fin, b.Translated ctx funcIndex accessors func fin := by
  obtain ⟨type, st, fin, ht, hmax, hp, hf, -⟩ := Body.compiles_iff_passes.mp h
  have htype : func.type = type := (Assembly.finish_eq_ok hf).1.trans hp.heads.header.2.1
  subst htype
  exact ⟨fin, ht, hmax, ⟨st, hp⟩, hf⟩

theorem Decode.exists_translated {refs refs' : Array (Nat × Nat)} {c c' : Cursor}
    (h : Decode.body ctx funcIndex accessors refs c = .ok (func, accessors', refs') c') :
    ∃ (b : Body) (fin : Emission), b.Form c.left ∧
      b.Translated ctx funcIndex accessors func fin := by
  obtain ⟨b, hform, -, hcomp⟩ := Decode.body_eq_ok.mp ⟨refs', h⟩
  obtain ⟨fin, hT⟩ := hcomp.translated
  exact ⟨b, fin, hform, hT⟩

/-! ## How many locals there are -/

theorem LocalSlot.width_le (ts : List ValueType) : width ts ≤ 2 * ts.length := by
  induction ts with
  | nil => exact Nat.le_refl _
  | cons t ts ih =>
    have ht : t.slotWidth ≤ 2 := by cases t <;> decide
    rw [width, length_cons]
    omega

theorem LocalGroup.length_types (groups : List (Nat × ValueType)) :
    (types groups).length = (groups.map Prod.fst).sum := by
  rw [types, length_flatMap]
  exact congrArg (fun f => (groups.map f).sum) (funext fun _ => length_replicate)

/-- **A function keeps to `maxLocals` exactly when its parameters do**: a group of locals is held to
    the limit, parameters alone are not. -/
theorem Decode.body_locals_bounded {accessors' : Accessors} {refs refs' : Array (Nat × Nat)}
    {c c' : Cursor} (h : body ctx funcIndex accessors refs c = .ok (func, accessors', refs') c') :
    ctx.spaces.funcType funcIndex = .ok func.type ∧
    (∃ b : Body, b.Form c.left ∧
      func.locals.size = func.type.params.length + (b.groups.map Prod.fst).sum ∧
      (b.groups ≠ [] → func.locals.size ≤ maxLocals)) ∧
    (func.locals.size ≤ maxLocals ↔ func.type.params.length ≤ maxLocals) ∧
    (∀ entry ∈ func.locals.toList, entry.slot + entry.type.slotWidth ≤ 2 * func.locals.size) ∧
    (func.type.params.length ≤ maxLocals →
      ∀ entry ∈ func.locals.toList, entry.slot + entry.type.slotWidth < 2 ^ 32) := by
  obtain ⟨b, fin, hform, hT⟩ := exists_translated h
  have hsize : func.locals.size = (b.localTypes func.type.params).length := hT.arranges.size
  have hcount : func.locals.size = func.type.params.length + (b.groups.map Prod.fst).sum := by
    rw [hsize, Body.localTypes, length_append, LocalGroup.length_types]
  have hlimit : b.groups ≠ [] → func.locals.size ≤ maxLocals := hsize ▸ hT.limit
  have hiff : func.locals.size ≤ maxLocals ↔ func.type.params.length ≤ maxLocals := by
    refine ⟨fun hle => by omega, fun hle => ?_⟩
    by_cases hgroups : b.groups = []
    · rw [hcount, hgroups]
      exact hle
    · exact hlimit hgroups
  have hslots : ∀ entry ∈ func.locals.toList,
      entry.slot + entry.type.slotWidth ≤ 2 * func.locals.size := by
    intro entry hentry
    rw [hT.locals_eq] at hentry
    have hbelow := (bounds_layoutFrom 0 _ entry hentry).2
    have hwidth := LocalSlot.width_le (b.localTypes func.type.params)
    omega
  refine ⟨hT.type, ⟨b, hform, hcount, hlimit⟩, hiff, hslots, fun hle entry hentry => ?_⟩
  have hbelow := hslots entry hentry
  have hmax : func.locals.size ≤ 50000 := hiff.mpr hle
  omega

def BodyContext.taking (params : List ValueType) : BodyContext :=
  { BodyContext.single with
    spaces := { IndexSpaces.empty with types := #[⟨params, []⟩], funcs := #[0] } }

theorem Decode.body_empty (params : List ValueType) : ∃ func accessors refs c',
    body (.taking params) 0 .empty #[] (.ofBytes ⟨#[0x00, 0x0B]⟩ 0) =
      .ok (func, accessors, refs) c' ∧ func.type.params = params ∧ func.locals = layout params := by
  have hform : Body.Form [0x00, 0x0B] ⟨[], .done⟩ :=
    ⟨[0x00], [], [0x0B] ++ [], rfl, Leb128.unsigned_byte (by decide) (by decide) (by decide), .nil,
      .cons ⟨0x0B, [], rfl, rfl, rfl⟩ .nil⟩
  obtain ⟨func, accessors, hcomp⟩ := (@Body.exists_compiles_iff (.taking params) 0 .empty
    ⟨[], .done⟩).mpr ⟨⟨params, []⟩, rfl, fun hne => absurd rfl hne, .done .nil⟩
  obtain ⟨c', ho⟩ := (Cursor.ofBytes ⟨#[0x00, 0x0B]⟩ 0).exists_over_left
  obtain ⟨refs, h⟩ := (@body_eq_ok _ _ _ #[] _ _ _ _).mpr
    ⟨_, Cursor.left_ofBytes _ _ ▸ hform, ho, hcomp⟩
  obtain ⟨fin, hT⟩ := hcomp.translated
  have htype : func.type = ⟨params, []⟩ := Except.ok.inj (hT.type.symm.trans rfl)
  refine ⟨func, accessors, refs, c', h, htype ▸ rfl, ?_⟩
  rw [hT.locals_eq, htype]
  exact congrArg layout (append_nil _)

/-- A body that reaches the limit. -/
theorem Decode.body_locals_bounded_full : ∃ func accessors refs c',
    body (.taking (List.replicate maxLocals .i64)) 0 .empty #[] (.ofBytes ⟨#[0x00, 0x0B]⟩ 0) =
      .ok (func, accessors, refs) c' ∧ func.locals.size ≤ maxLocals ∧
    ∀ entry ∈ func.locals.toList, entry.slot + entry.type.slotWidth < 2 ^ 32 := by
  obtain ⟨func, accessors, refs, c', h, htype, -⟩ := body_empty (List.replicate maxLocals .i64)
  have hle : func.type.params.length ≤ maxLocals :=
    Nat.le_of_eq (by rw [htype, length_replicate])
  obtain ⟨-, -, hiff, -, hslots⟩ := body_locals_bounded h
  exact ⟨func, accessors, refs, c', h, hiff.mpr hle, hslots hle⟩

/-- **Parameters alone may exceed the limit.** -/
theorem Decode.body_over_limit : ∃ func accessors refs c',
    body (.taking (List.replicate 50001 .i32)) 0 .empty #[] (.ofBytes ⟨#[0x00, 0x0B]⟩ 0) =
      .ok (func, accessors, refs) c' ∧ func.locals.size = 50001 ∧ maxLocals < func.locals.size := by
  obtain ⟨func, accessors, refs, c', h, -, hlocals⟩ := body_empty (List.replicate 50001 .i32)
  have hsize : func.locals.size = 50001 := by
    rw [hlocals, size_layout, length_replicate]
  exact ⟨func, accessors, refs, c', h, hsize, hsize ▸ Nat.lt_succ_self 50000⟩

/-! ## A body with a branch table -/

def tableOut : ByteArray :=
  ⟨#[0x01, 0x01, 0x7E, 0x41, 0x01, 0x41, 0x02, 0x41, 0x05, 0x0E, 0x00, 0x00, 0x0B]⟩

def returnTwo : CompiledFunction where
  funcIndex := 0
  type := ⟨[], [.i32]⟩
  locals := #[⟨.i64, 0⟩]
  frameSlots := 3
  code := #[.basic (.i32Const 1), .basic (.i32Const 2), .basic (.i32Const 5), .jumpTable #[] 4,
    .basic (.localSet 2), .basic .drop, .basic (.localGet 2), .jump 8, .basic .ret]

theorem Decode.body_tableOut : ∃ refs c',
    body .single 0 .empty #[] (.ofBytes tableOut 0) = .ok (returnTwo, .empty, refs) c' := by
  have hresult : (match body .single 0 .empty #[] (.ofBytes tableOut 0) with
      | .ok (f, a, _) _ => some (f, a)
      | .error _ _ => none) = some (returnTwo, .empty) := by
    decide +kernel
  split at hresult
  · next f a refs c' hbody =>
      cases hresult
      exact ⟨refs, c', hbody⟩
  · cases hresult

theorem Body.listed_tableOut : Listed [(1, .i64)]
    [.i32Const 1, .i32Const 2, .i32Const 5, .brTable [] 0, .endScope] tableOut.data.toList := by
  have hbyte : ∀ {b : UInt8}, b.toNat < 128 → Leb128.Unsigned 32 [b] b.toNat := fun hb =>
    Leb128.unsigned_byte (by decide) hb (Nat.lt_of_lt_of_le hb (by decide))
  have hconst : ∀ b : UInt8, b.toNat < 64 →
      Instr.Form [0x41, b] (.i32Const (BitVec.ofInt 32 b.toNat)) := by
    intro b hb
    have hpow : Nat.pow 2 31 = 2147483648 := rfl
    refine ⟨0x41, [b], rfl, b.toNat, ⟨(by omega : b.toNat < 128), ?_, if_pos hb, ?_, ?_⟩, rfl⟩
    · exact (by decide : 1 ≤ Leb128.maxGroups 32)
    · rw [hpow]; omega
    · rw [hpow]; omega
  refine ⟨[0x01], [0x01, 0x7E] ++ [], [0x41, 0x01] ++ ([0x41, 0x02] ++ ([0x41, 0x05] ++
    ([0x0E, 0x00, 0x00] ++ ([0x0B] ++ [])))), rfl, hbyte (by decide),
    .cons ⟨[0x01], rfl, hbyte (by decide)⟩ .nil, ?_⟩
  exact .cons (hconst 1 (by decide)) (.cons (hconst 2 (by decide)) (.cons (hconst 5 (by decide))
    (.cons ⟨0x0E, [0x00, 0x00], rfl, [0x00], [], [0x00], [], 0, rfl, hbyte (by decide), .nil,
      hbyte (by decide), rfl⟩ (.cons ⟨0x0B, [], rfl, rfl, rfl⟩ .nil))))

theorem Body.begins_tableOut : ∃ st fin, Begins .single 0 .empty ⟨[(1, .i64)], .done⟩ ⟨[], [.i32]⟩
      [.i32Const 1, .i32Const 2, .i32Const 5, .brTable [] 0, .endScope] st fin ∧
    fin.scratch = [⟨.i32, 0, 2⟩] ∧ fin.asm.labels = #[some 8, some 4] := by
  refine ⟨_, _, .cons rfl (.cons rfl (.cons rfl (.cons rfl (.cons (Instr.check_iff.mpr
    (.last (fun h => ?_) rfl)) .nil)))), by decide +kernel⟩
  cases h

theorem Body.translated_tableOut (hform : b.Form tableOut.data.toList)
    (hT : b.Translated .single 0 .empty returnTwo fin) :
    b.groups = [(1, .i64)] ∧ b.code.instrs ++ [.endScope] =
      [.i32Const 1, .i32Const 2, .i32Const 5, .brTable [] 0, .endScope] ∧
    fin.scratch = [⟨.i32, 0, 2⟩] ∧ fin.asm.labels = #[some 8, some 4] := by
  obtain ⟨groups, code⟩ := b
  obtain ⟨rfl, hcode⟩ := (form_iff.mp hform).inj listed_tableOut
  obtain ⟨st, hp⟩ := hT.begins
  obtain ⟨st', fin', hp', hfin⟩ := begins_tableOut
  rw [hcode] at hp
  -- The context of the code does not depend on it.
  obtain ⟨-, rfl⟩ := Passes.unique hp' hp
  exact ⟨rfl, hcode, hfin⟩

/-! ## Slots that do not overlap -/

/-- **Locals and scratch slots do not overlap**: a branch saves what it carries in scratch slots
    behind the locals, all of them apart and in the frame. -/
theorem Decode.body_slots_apart {accessors' : Accessors} {refs refs' : Array (Nat × Nat)}
    {c c' : Cursor} (h : body ctx funcIndex accessors refs c = .ok (func, accessors', refs') c') :
    ∃ (b : Body) (fin : Emission), b.Form c.left ∧ b.Translated ctx funcIndex accessors func fin ∧
      func.Arranges (b.localTypes func.type.params) fin.scratch.reverse ∧
      (∀ s ∈ fin.scratch, ∀ (f : Frame) (store : Store), ∃ f',
        BasicOp.exec f (.localSet s.slot) store = .ok (.next f') store ∧
        ∀ entry : LocalSlot,
          (entry ∈ func.locals.toList ∨ ∃ s' ∈ fin.scratch, s' ≠ s ∧ s'.entry = entry) →
          ∀ n, entry.slot ≤ n → n < entry.slot + entry.type.slotWidth →
            f'.locals[n]? = f.locals[n]?) ∧
      ∀ (i : Instr) (st : ControlStack) (e : Emission),
        b.ComesTo ctx funcIndex accessors func.type i st e → st.isEmitting = true →
        ∀ stack depth, i.GoesTo st stack depth →
        ∃ target excess, stack.scopeAt depth = .ok target ∧
          stack.depth = target.branchTypes.length + excess + stack.height depth ∧
          (excess ≠ 0 → ∃ slots p, slots.length = target.branchTypes.length ∧
            (Emission.scratchEntries [] target.branchTypes slots).Nodup ∧
            (∀ s ∈ Emission.scratchEntries [] target.branchTypes slots, s ∈ fin.scratch) ∧
            e.asm.code.size ≤ p ∧ p + (Emission.transferOps slots excess).length <
              (i.emit (b.context ctx func.type.params) st e).asm.code.size ∧
            (Emission.transferOps slots excess).map .basic <+: func.code.toList.drop p) := by
  obtain ⟨b, fin, hform, hT⟩ := exists_translated h
  have hlink := (Assembly.finish_eq_ok hT.finish).2.2.2
  refine ⟨b, fin, hform, hT, hT.arranges, fun s hs f store => ⟨_, rfl, fun entry hentry n hle hlt =>
    hT.set_scratch hs hentry _ _ hle hlt⟩, fun i st e hc hem stack depth hg => ?_⟩
  obtain ⟨scopes, target, rfl, hl, ht, hle, -, -, hin, hemit⟩ := hT.branch hc hem hg
  rw [hemit]
  refine ⟨target, surplus scopes depth target, Check.scopeAt_eq_ok.mpr ht, ?_, fun hsome => ?_⟩
  · rw [depth_eq scopes depth, surplus]
    omega
  · obtain ⟨slots, p, hlen, hmem, hp⟩ := hin.transfer ht hl hlink hsome
    exact ⟨slots, p, hlen, Emission.scratchEntries_nodup _ _ _, hmem, hp⟩

/-- A branch table that saves two values. -/
theorem Decode.body_slots_apart_tableOut :
    (∃ refs c', body .single 0 .empty #[] (.ofBytes tableOut 0) =
      .ok (returnTwo, .empty, refs) c') ∧ returnTwo.Arranges [.i64] [⟨.i32, 0, 2⟩] := by
  obtain ⟨refs, c', h⟩ := body_tableOut
  obtain ⟨⟨groups, code⟩, fin, hform, hT, harranges, -⟩ := body_slots_apart h
  rw [Cursor.left_ofBytes] at hform
  obtain ⟨rfl, -, hscratch, -⟩ := Body.translated_tableOut hform hT
  rw [hscratch] at harranges
  exact ⟨⟨refs, c', h⟩, harranges⟩

/-! ## Where branches land -/

/-- A branch gets to the label of its target with what it carries above what stood there, the same
    locals and the same store. -/
def Frame.Lands (f : Frame) (fin : Emission) (stack : ControlStack) (depth : Nat)
    (vs below : List Value) : Prop :=
  ∃ target pc, stack.scopeAt depth = .ok target ∧
    fin.asm.labels[target.label.id]? = some (some pc) ∧
    target.branchTypes.length + stack.height depth ≤ vs.length ∧
    ∀ s callers room, ∃ locals : Array Value, locals.size = f.locals.size ∧
      (∀ entry ∈ f.func.locals.toList, locals[entry.slot]? = f.locals[entry.slot]?) ∧
      LeadsOn (.next s ⟨.frame f, callers, room⟩) (.next s ⟨.frame { f with
        pc, locals
        operands := vs.take target.branchTypes.length ++
          (vs.drop (vs.length - stack.height depth) ++ below) }, callers, room⟩)

theorem ControlStack.exists_split {vs : List Value}
    (hvs : vs.length = ControlStack.depth ⟨[], scopes⟩)
    (depth : Nat) : ∃ ops rest, vs = ops ++ rest ∧ ops.length = (Scope.above scopes depth).length ∧
      rest.length = height ⟨[], scopes⟩ depth := by
  rw [depth_eq scopes depth] at hvs
  refine ⟨_, _, (take_append_drop (Scope.above scopes depth).length vs).symm, ?_, ?_⟩
  · rw [length_take, hvs, Nat.min_eq_left (Nat.le_add_right _ _)]
  · rw [length_drop, hvs, Nat.add_sub_cancel_left]

theorem Spot.lands (site : Spot) {pc : Nat} {slots : Array Value}
    {operands ops rest below : List Value}
    (hlocals : site.func.locals = layout site.types) (ht : scopes[depth]? = some target)
    (hb : IsBound site.fin.asm.labels target.label)
    (hops : ops.length = (Scope.above scopes depth).length)
    (hrest : rest.length = height ⟨[], scopes⟩ depth)
    (hle : target.branchTypes.length ≤ ops.length)
    (h : ∀ s callers room, ∃ slots', site.Same slots slots' ∧
      LeadsOn (site.state s callers room pc slots operands)
        (site.state s callers room (place site.fin.asm.labels target.label) slots'
          (ops.take target.branchTypes.length ++ (rest ++ below)))) :
    (site.frame pc slots operands).Lands site.fin ⟨[], scopes⟩ depth (ops ++ rest) below := by
  obtain ⟨pos, hpos⟩ := hb
  refine ⟨target, pos, Check.scopeAt_eq_ok.mpr ht, hpos, ?_, fun s callers room => ?_⟩
  · rw [length_append, hrest]
    omega
  · obtain ⟨slots', hsame, hlead⟩ := h s callers room
    rw [Assembly.place_eq hpos] at hlead
    refine ⟨slots', hsame.size, fun entry hentry => ?_, ?_⟩
    · obtain ⟨n, hn⟩ := getElem?_of_mem (show entry ∈ site.func.locals.toList from hentry)
      rw [Array.getElem?_toList, hlocals] at hn
      exact hsame.same _ (slot_lt_width hn)
    · rw [take_append_of_le_length hle, ← hrest, length_append, Nat.add_sub_cancel, drop_left]
      exact hlead

/-- **A branch carries its values to the target** (`Frame.Lands`); one that is not taken only takes
    its condition, and a table goes to the depth at its index or to the default. -/
theorem Decode.body_branches_land {accessors' : Accessors} {refs refs' : Array (Nat × Nat)}
    {c c' : Cursor} (h : body ctx funcIndex accessors refs c = .ok (func, accessors', refs') c') :
    ∃ (b : Body) (fin : Emission), b.Form c.left ∧ b.Translated ctx funcIndex accessors func fin ∧
      ∀ (i : Instr) (st : ControlStack) (e : Emission),
        b.ComesTo ctx funcIndex accessors func.type i st e → st.isEmitting = true →
        ∀ (f : Frame) (vs below : List Value), f.func = func → f.pc = e.asm.code.size →
          f.locals.size = func.frameSlots →
          (∀ depth, i = .br depth ∨ i = .ret ∧ depth = st.functionDepth → vs.length = st.depth →
            f.operands = vs ++ below → f.Lands fin st depth vs below) ∧
          (∀ depth v, i = .brIf depth → vs.length = st.dropTop.depth →
            f.operands = v :: (vs ++ below) →
            if v.asI32 ≠ 0 then f.Lands fin st.dropTop depth vs below
            else ∀ s callers room, LeadsOn (.next s ⟨.frame f, callers, room⟩)
              (.next s ⟨.frame { f with
              pc := (i.emit (b.context ctx func.type.params) st e).asm.code.size
              operands := vs ++ below }, callers, room⟩)) ∧
          (∀ depths default v, i = .brTable depths default → vs.length = st.dropTop.depth →
            f.operands = v :: (vs ++ below) →
            f.Lands fin st.dropTop (depths[v.asI32.toNat]?.getD default) vs below) := by
  obtain ⟨b, fin, hform, hT⟩ := exists_translated h
  obtain ⟨-, -, hslots, hlink⟩ := Assembly.finish_eq_ok hT.finish
  refine ⟨b, fin, hform, hT, fun i st e hc hem f vs below hfunc hpc hsize => ?_⟩
  obtain ⟨inst, func', pc', slots, operands⟩ := f
  dsimp only at hfunc hpc hsize
  subst hfunc hpc
  let site : Spot := ⟨inst, func', b.localTypes func'.type.params, fin, hlink, hslots⟩
  rw [hslots] at hsize
  refine ⟨fun depth hi hvs hops => ?_, fun depth v hi hvs hops => ?_,
    fun depths default v hi hvs hops => ?_⟩
  · have hg : i.GoesTo st st depth := by
      rcases hi with rfl | ⟨rfl, rfl⟩
      · exact .br
      · exact .ret
    obtain ⟨scopes, target, rfl, hl, ht, hle, hsep, hk, hin, -⟩ := hT.branch hc hem hg
    obtain ⟨ops, rest, rfl, hlen, hrest⟩ := ControlStack.exists_split hvs depth
    rw [← hlen] at hle
    rw [append_assoc] at hops
    subst hops
    have hcode : (e.branch ⟨[], scopes⟩ depth).Kept fin := by
      rcases hi with rfl | ⟨rfl, rfl⟩
      · exact hk
      · exact hk
    exact site.lands hT.locals_eq ht (hin.isBound ht hl hlink) hlen hrest hle fun _ _ _ =>
      Spot.leads_branch ht hl hcode.heads hsep hsize hlen hle
  · subst hi
    obtain ⟨scopes, target, hs, hl, ht, hle, hsep, hk, hin, hemit⟩ := hT.branch hc hem .brIf
    rw [hs] at hvs ⊢
    obtain ⟨ops, rest, rfl, hlen, hrest⟩ := ControlStack.exists_split hvs depth
    rw [← hlen] at hle
    rw [append_assoc] at hops ⊢
    subst hops
    rw [hemit, Instr.emitReachable, hs]
    rw [Instr.emitReachable, hs] at hk
    have hlead := fun s callers room => @Spot.leads_branchIf e slots ops (rest ++ below) site s
      callers room scopes depth target hk hsep ht hl hsize hlen hle v
    split
    · next hc =>
        simp only [if_pos hc] at hlead
        exact site.lands hT.locals_eq ht (hin.isBound ht hl hlink) hlen hrest hle hlead
    · next hc =>
        simp only [if_neg hc] at hlead
        exact hlead
  · subst hi
    have hmem := mem_of_getElem? (Emission.getElem?_append_getD depths default v.asI32.toNat)
    obtain ⟨scopes, target, hs, hl, ht, hle, hsep, hk, hin, -⟩ := hT.branch hc hem (.brTable hmem)
    rw [hs] at hvs ⊢
    obtain ⟨ops, rest, rfl, hlen, hrest⟩ := ControlStack.exists_split hvs _
    rw [← hlen] at hle
    rw [append_assoc] at hops
    subst hops
    rw [Instr.emitReachable, hs] at hk
    exact site.lands hT.locals_eq ht (hin.isBound ht hl hlink) hlen hrest hle fun _ _ _ =>
      Spot.leads_branchTable hk hsep ht hl hsize hlen hle

/-- A table comes to the end of the function by its default. -/
theorem Decode.body_branches_land_tableOut :
    (∃ refs c', body .single 0 .empty #[] (.ofBytes tableOut 0) =
      .ok (returnTwo, .empty, refs) c') ∧
    ∀ (inst : Instance) (locals : Array Value), locals.size = 3 → ∀ s callers room,
      ∃ locals' : Array Value, locals'[0]? = locals[0]? ∧ LeadsOn
        (.next s ⟨.frame ⟨inst, returnTwo, 3, locals, [.i32 5, .i32 2, .i32 1]⟩, callers, room⟩)
        (.next s ⟨.frame ⟨inst, returnTwo, 8, locals', [.i32 2]⟩, callers, room⟩) := by
  refine ⟨body_tableOut, fun inst locals hsize s callers room => ?_⟩
  obtain ⟨refs, c', h⟩ := body_tableOut
  obtain ⟨⟨groups, code⟩, fin, hform, hT, hland⟩ := body_branches_land h
  rw [Cursor.left_ofBytes] at hform
  obtain ⟨rfl, hcode, -, hlabels⟩ := Body.translated_tableOut hform hT
  obtain ⟨target, pc, htarget, hpc, -, hrun⟩ := (hland _ _ _
    ⟨[.i32Const 1, .i32Const 2, .i32Const 5], _, hcode, .cons rfl (.cons rfl (.cons rfl .nil))⟩ rfl
    ⟨inst, returnTwo, 3, locals, [.i32 5, .i32 2, .i32 1]⟩ [.i32 2, .i32 1] [] rfl rfl hsize).2.2
      [] 0 (.i32 5) rfl rfl rfl
  cases htarget
  rw [hlabels] at hpc
  cases hpc
  obtain ⟨locals', -, hlocals, hlead⟩ := hrun s callers room
  exact ⟨locals', hlocals ⟨.i64, 0⟩ (.head _), hlead⟩

end Wasm
