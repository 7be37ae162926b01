import Wasm.Proofs.Validation.Typing

/-! # What one check does

`Instr.Moves` is all that later files know of a check (`Instr.check_eq_ok`). -/

namespace Wasm

open List

variable {t : ValueType} {sc : Scope} {os : List Scope} {st s : ControlStack} {ctx : BodyContext}

namespace Operand

/-- Pops `n` operands in front of `popped`. -/
def popMany? (unreachable : Bool) :
    Nat → List Operand → List Operand → Option (List Operand × List Operand)
  | 0, popped, operands => some (popped, operands)
  | n + 1, popped, operands =>
    match pop? unreachable operands with
    | some (operand, rest) => popMany? unreachable n (operand :: popped) rest
    | none => none

theorem take?_singleton {unr : Bool} {ops rest : List Operand} :
    take? unr [t] ops = some rest ↔ ∃ o, pop? unr ops = some (o, rest) ∧ o.fits t = true := by
  rw [take?]
  cases pop? unr ops with
  | none => simp
  | some p =>
    obtain ⟨o, r⟩ := p
    by_cases h : o.fits t = true
    · simp only [h, if_true, take?_nil, Option.some.injEq, Prod.mk.injEq]
      constructor
      · rintro rfl; exact ⟨o, ⟨rfl, rfl⟩, h⟩
      · rintro ⟨o', ⟨-, rfl⟩, -⟩; rfl
    · simp only [h, Bool.false_eq_true, if_false, Option.some.injEq, Prod.mk.injEq]
      constructor
      · intro h'; cases h'
      · rintro ⟨o', ⟨rfl, -⟩, h'⟩; exact absurd h' h

/-- Whether each operand may stand for its type. -/
def fitsAll : List Operand → List ValueType → Bool
  | operand :: operands, type :: types => operand.fits type && fitsAll operands types
  | _, _ => true

/-- The operand that an untyped `select` yields. -/
def selected (first second : Operand) : Operand := if first = .unknown then second else first

end Operand

open Operand in
/-- The check of an instruction leads from `operands` of the innermost scope to others. -/
inductive Instr.Moves (ctx : BodyContext) (labels : List (List ValueType)) :
    Instr → Bool → List Operand → Bool → List Operand → Prop
  | fixed {i ps rs unr ops rest} (h : Instr.Fixed ctx i ps rs)
      (ht : take? unr ps.reverse ops = some rest) :
      Moves ctx labels i unr ops unr ((known rs).reverse ++ rest)
  | unreachable {unr ops} : Moves ctx labels .unreachable unr ops true []
  | br {depth types unr ops rest} (h : labels[depth]? = some types)
      (ht : take? unr types.reverse ops = some rest) : Moves ctx labels (.br depth) unr ops true []
  | ret {types unr ops rest} (h : labels[labels.length - 1]? = some types)
      (ht : take? unr types.reverse ops = some rest) : Moves ctx labels .ret unr ops true []
  | brIf {depth types unr ops rest} (h : labels[depth]? = some types)
      (ht : take? unr (types ++ [.i32]).reverse ops = some rest) :
      Moves ctx labels (.brIf depth) unr ops unr ((known types).reverse ++ rest)
  | brTable {depths default types carried unr ops ops1 rest}
      (hi : take? unr [.i32] ops = some ops1) (h : labels[default]? = some types)
      (hc : popMany? unr types.length [] ops1 = some (carried, rest))
      (ht : ∀ depth ∈ depths ++ [default], ∃ ts, labels[depth]? = some ts ∧
        ts.length = types.length ∧ fitsAll carried ts = true) :
      Moves ctx labels (.brTable depths default) unr ops true []
  | drop {o unr ops rest} (h : pop? unr ops = some (o, rest)) :
      Moves ctx labels .drop unr ops unr rest
  | select {first second unr ops ops1 ops2 rest} (hi : take? unr [.i32] ops = some ops1)
      (h2 : pop? unr ops1 = some (second, ops2)) (h1 : pop? unr ops2 = some (first, rest))
      (hs : ∀ a b, first = .known a → second = .known b → b = a)
      (hn : ∀ t, selected first second = .known t → t.isRef = false) :
      Moves ctx labels .select unr ops unr (selected first second :: rest)
  | refIsNull {o unr ops rest} (h : pop? unr ops = some (o, rest))
      (ho : ∀ t, o = .known t → t.isRef = true) :
      Moves ctx labels .refIsNull unr ops unr (.known .i32 :: rest)

namespace Check

variable {depth : Nat}

theorem requireMemory_eq_ok {index : Nat} : requireMemory ctx index s = .ok () st ↔
      (∃ limits, ctx.spaces.memory index = .ok limits) ∧ st = s := by
  unfold requireMemory
  rw [bind_eq_ok]
  constructor
  · rintro ⟨a, s1, h, h'⟩
    obtain ⟨ha, rfl⟩ := need_eq_ok.mp h
    cases h'
    exact ⟨⟨a, ha⟩, rfl⟩
  · rintro ⟨⟨a, ha⟩, rfl⟩
    exact ⟨a, _, need_eq_ok.mpr ⟨ha, rfl⟩, rfl⟩

theorem requireSame_eq_ok {expected found : ValueType} :
    requireSame expected found s = .ok () st ↔ found = expected ∧ st = s := by
  unfold requireSame
  by_cases h : found = expected
  · rw [if_pos h]
    constructor
    · intro h'; cases h'; exact ⟨h, rfl⟩
    · rintro ⟨-, rfl⟩; rfl
  · rw [if_neg h]
    constructor
    · intro h'; cases h'
    · rintro ⟨h', -⟩; exact absurd h' h

theorem memArg_eq_ok {access : MemoryAccess} {arg : MemArg} :
    memArg ctx access arg s = .ok () st ↔ arg.align ≤ access.naturalAlignment ∧
        (∃ limits, ctx.spaces.memory arg.memory = .ok limits) ∧ st = s := by
  unfold memArg
  by_cases h : arg.align > access.naturalAlignment
  · simp only [if_pos h]
    constructor
    · intro h'; cases h'
    · rintro ⟨h', -⟩; omega
  · simp only [if_neg h]
    constructor
    · intro h'; exact ⟨by omega, requireMemory_eq_ok.mp h'⟩
    · rintro ⟨-, h'⟩; exact requireMemory_eq_ok.mpr h'

theorem scopeAt_eq_ok {scope : Scope} {stack : ControlStack} :
    stack.scopeAt depth = .ok scope ↔ stack.scopes[depth]? = some scope := by
  unfold ControlStack.scopeAt
  cases stack.scopes[depth]? with
  | none =>
    constructor
    · intro h; cases h
    · intro h; cases h
  | some s =>
    constructor
    · intro h; cases h; rfl
    · intro h; cases h; rfl

theorem labels_getElem? {scopes : List Scope} {types : List ValueType} :
    (scopes.map Scope.branchTypes)[depth]? = some types ↔
      ∃ scope, scopes[depth]? = some scope ∧ scope.branchTypes = types := by
  rw [getElem?_map, Option.map_eq_some_iff]

theorem branch_eq_ok : branch depth ⟨[], sc :: os⟩ = .ok () st ↔
      ∃ types rest, ((sc :: os).map Scope.branchTypes)[depth]? = some types ∧
        Operand.take? sc.unreachable types.reverse sc.operands = some rest ∧
        st = ⟨[], sc.keeping ((known types).reverse ++ rest) :: os⟩ := by
  unfold branch
  rw [bind_eq_ok]
  constructor
  · rintro ⟨s, s1, hget, h⟩
    cases hget
    obtain ⟨target, s2, hneed, happly⟩ := bind_eq_ok.mp h
    obtain ⟨hs, rfl⟩ := need_eq_ok.mp hneed
    obtain ⟨rest, ht, rfl⟩ := apply_eq_ok.mp happly
    exact ⟨_, rest, labels_getElem?.mpr ⟨target, scopeAt_eq_ok.mp hs, rfl⟩, ht, rfl⟩
  · rintro ⟨types, rest, hl, ht, rfl⟩
    obtain ⟨target, hs, rfl⟩ := labels_getElem?.mp hl
    refine ⟨_, _, rfl, ?_⟩
    rw [bind_of_ok (need_eq_ok.mpr ⟨scopeAt_eq_ok.mpr hs, rfl⟩)]
    exact apply_eq_ok.mpr ⟨rest, ht, rfl⟩

theorem popMany_eq_ok {n : Nat} {acc popped : List Operand} :
    popMany n acc ⟨[], sc :: os⟩ = .ok popped st ↔
      ∃ rest, Operand.popMany? sc.unreachable n acc sc.operands = some (popped, rest) ∧
        st = ⟨[], sc.keeping rest :: os⟩ := by
  induction n generalizing sc acc with
  | zero =>
    constructor
    · intro h; cases h; exact ⟨sc.operands, rfl, rfl⟩
    · rintro ⟨rest, h, rfl⟩; cases h; rfl
  | succ n ih =>
    rw [popMany, bind_eq_ok]
    constructor
    · rintro ⟨o, s1, hpop, h⟩
      obtain ⟨r1, hp, rfl⟩ := pop_eq_ok.mp hpop
      obtain ⟨rest, hm, rfl⟩ := ih.mp h
      refine ⟨rest, ?_, rfl⟩
      rw [Operand.popMany?, hp]
      exact hm
    · rintro ⟨rest, hm, rfl⟩
      rw [Operand.popMany?] at hm
      cases hp : Operand.pop? sc.unreachable sc.operands with
      | none => rw [hp] at hm; cases hm
      | some p =>
        obtain ⟨o, r1⟩ := p
        rw [hp] at hm
        exact ⟨o, _, pop_eq_ok.mpr ⟨r1, hp, rfl⟩, ih.mpr ⟨rest, hm, rfl⟩⟩

theorem requireTypes_eq_ok {ops : List Operand} {ts : List ValueType} :
    requireTypes ops ts s = .ok () st ↔ Operand.fitsAll ops ts = true ∧ st = s := by
  induction ops generalizing ts s with
  | nil =>
    constructor
    · intro h; cases h; exact ⟨rfl, rfl⟩
    · rintro ⟨-, rfl⟩; rfl
  | cons o ops ih =>
    cases ts with
    | nil =>
      constructor
      · intro h; cases o <;> cases h <;> exact ⟨rfl, rfl⟩
      · rintro ⟨-, rfl⟩; cases o <;> rfl
    | cons t ts =>
      cases o with
      | unknown =>
        rw [requireTypes, ih]
        simp [Operand.fitsAll]
      | known u =>
        rw [requireTypes, bind_eq_ok]
        simp only [Operand.fitsAll, Operand.fits_known, Bool.and_eq_true, decide_eq_true_eq]
        constructor
        · rintro ⟨⟨⟩, s1, h, h'⟩
          obtain ⟨rfl, rfl⟩ := requireSame_eq_ok.mp h
          obtain ⟨hf, rfl⟩ := ih.mp h'
          exact ⟨⟨rfl, hf⟩, rfl⟩
        · rintro ⟨⟨rfl, hf⟩, rfl⟩
          exact ⟨(), _, requireSame_eq_ok.mpr ⟨rfl, rfl⟩, ih.mpr ⟨hf, rfl⟩⟩

variable {depths : List Nat} {result : Operand}

theorem requireTargets_eq_ok {arity : Nat} {carried : List Operand} :
    requireTargets arity carried depths s = .ok () st ↔
      (∀ depth ∈ depths, ∃ ts, (s.scopes.map Scope.branchTypes)[depth]? = some ts ∧
        ts.length = arity ∧ Operand.fitsAll carried ts = true) ∧ st = s := by
  induction depths generalizing s with
  | nil =>
    constructor
    · intro h; cases h; exact ⟨(fun _ hd => nomatch hd), rfl⟩
    · rintro ⟨-, rfl⟩; rfl
  | cons depth depths ih =>
    rw [requireTargets, bind_eq_ok]
    constructor
    · rintro ⟨s', s1, hget, h⟩
      cases hget
      obtain ⟨target, s2, hneed, hgo⟩ := bind_eq_ok.mp h
      obtain ⟨hs, rfl⟩ := need_eq_ok.mp hneed
      by_cases ha : target.branchTypes.length = arity
      · simp only [ne_eq, ha, not_true_eq_false, if_false] at hgo
        obtain ⟨⟨⟩, s3, htypes, htargets⟩ := bind_eq_ok.mp hgo
        obtain ⟨hf, rfl⟩ := requireTypes_eq_ok.mp htypes
        obtain ⟨hrest, rfl⟩ := ih.mp htargets
        refine ⟨?_, rfl⟩
        intro d hd
        rcases mem_cons.mp hd with rfl | hd
        · exact ⟨_, labels_getElem?.mpr ⟨target, scopeAt_eq_ok.mp hs, rfl⟩, ha, hf⟩
        · exact hrest d hd
      · simp only [ne_eq, ha, not_false_eq_true, if_true] at hgo
        cases hgo
    · rintro ⟨hall, rfl⟩
      refine ⟨_, _, rfl, ?_⟩
      obtain ⟨ts, hl, ha, hf⟩ := hall depth mem_cons_self
      obtain ⟨target, hs, rfl⟩ := labels_getElem?.mp hl
      rw [bind_of_ok (need_eq_ok.mpr ⟨scopeAt_eq_ok.mpr hs, rfl⟩)]
      simp only [ne_eq, ha, not_true_eq_false, if_false]
      exact bind_eq_ok.mpr ⟨(), _, requireTypes_eq_ok.mpr ⟨hf, rfl⟩,
        ih.mpr ⟨fun d hd => hall d (mem_cons_of_mem _ hd), rfl⟩⟩

theorem branchTable_eq_ok (ctx : BodyContext) {default : Nat} :
    branchTable depths default ⟨[], sc :: os⟩ = .ok () st ↔
      ∃ unr ops, Instr.Moves ctx ((sc :: os).map Scope.branchTypes) (.brTable depths default)
        sc.unreachable sc.operands unr ops ∧ st = ⟨[], sc.holding unr ops :: os⟩ := by
  unfold branchTable
  rw [bind_eq_ok]
  constructor
  · rintro ⟨o, s1, hpop, h⟩
    obtain ⟨ops1, hp, hfit, rfl⟩ := popType_eq_ok.mp hpop
    obtain ⟨s, s2, hget, h2⟩ := bind_eq_ok.mp h
    cases hget
    obtain ⟨target, s3, hneed, h3⟩ := bind_eq_ok.mp h2
    obtain ⟨hs, rfl⟩ := need_eq_ok.mp hneed
    obtain ⟨carried, s4, hmany, h4⟩ := bind_eq_ok.mp h3
    obtain ⟨rest, hm, rfl⟩ := popMany_eq_ok.mp hmany
    obtain ⟨⟨⟩, s5, htargets, h5⟩ := bind_eq_ok.mp h4
    obtain ⟨hall, rfl⟩ := requireTargets_eq_ok.mp htargets
    rw [bind_of_ok (pushMany_apply carried)] at h5
    cases h5
    have hl : ((sc.keeping ops1 :: os).map Scope.branchTypes)[default]?
        = some target.branchTypes := labels_getElem?.mpr ⟨target, scopeAt_eq_ok.mp hs, rfl⟩
    exact ⟨true, [], .brTable (Operand.take?_singleton.mpr ⟨o, hp, hfit⟩) hl hm hall, rfl⟩
  · rintro ⟨unr, ops, h, rfl⟩
    cases h with
    | fixed h => cases h
    | @brTable _ _ types _ _ _ ops1 _ hi hl hm hall =>
      obtain ⟨o, hp, hfit⟩ := Operand.take?_singleton.mp hi
      have hl' : ((sc.keeping ops1 :: os).map Scope.branchTypes)[default]? = some types := hl
      obtain ⟨target, hs, rfl⟩ := labels_getElem?.mp hl'
      refine ⟨o, _, popType_eq_ok.mpr ⟨_, hp, hfit, rfl⟩, ?_⟩
      refine bind_eq_ok.mpr ⟨_, _, rfl, ?_⟩
      refine bind_eq_ok.mpr ⟨target, _, need_eq_ok.mpr ⟨scopeAt_eq_ok.mpr hs, rfl⟩, ?_⟩
      refine bind_eq_ok.mpr ⟨_, _, popMany_eq_ok.mpr ⟨_, hm, rfl⟩, ?_⟩
      refine bind_eq_ok.mpr ⟨(), _, requireTargets_eq_ok.mpr ⟨hall, rfl⟩, ?_⟩
      rw [bind_of_ok (pushMany_apply _)]
      rfl

theorem selected_eq_ok : selected t = .ok result ↔ t.isRef = false ∧ result = .known t := by
  unfold selected
  cases t.isRef with
  | true => simp
  | false => simp [eq_comm]

theorem selectOf_eq_ok {first second : Operand} :
    selectOf first second = .ok result ↔
      (∀ a b, first = .known a → second = .known b → b = a) ∧
      (∀ t, Operand.selected first second = .known t → t.isRef = false) ∧
      result = Operand.selected first second := by
  cases first with
  | known a =>
    cases second with
    | known b =>
      by_cases h : b = a
      · subst h
        simp [selectOf, selected_eq_ok, Operand.selected]
      · simp [selectOf, Operand.selected, h]
    | unknown => simp [selectOf, selected_eq_ok, Operand.selected]
  | unknown =>
    cases second with
    | known b => simp [selectOf, selected_eq_ok, Operand.selected]
    | unknown =>
      simp only [selectOf, Operand.selected, if_true, Except.ok.injEq, reduceCtorEq, false_implies,
        implies_true, true_and]
      exact eq_comm

theorem selectOperand_eq_ok : selectOperand ⟨[], sc :: os⟩ = .ok result st ↔
      ∃ first second ops1 ops2 rest, Operand.take? sc.unreachable [.i32] sc.operands = some ops1 ∧
        Operand.pop? sc.unreachable ops1 = some (second, ops2) ∧
        Operand.pop? sc.unreachable ops2 = some (first, rest) ∧
        selectOf first second = .ok result ∧ st = ⟨[], sc.keeping rest :: os⟩ := by
  unfold selectOperand
  constructor
  · intro h
    obtain ⟨o, s1, hpop, h1⟩ := bind_eq_ok.mp h
    obtain ⟨ops1, hp, hfit, rfl⟩ := popType_eq_ok.mp hpop
    obtain ⟨second, s2, hsecond, h2⟩ := bind_eq_ok.mp h1
    obtain ⟨ops2, hp2, rfl⟩ := pop_eq_ok.mp hsecond
    obtain ⟨first, s3, hfirst, h3⟩ := bind_eq_ok.mp h2
    obtain ⟨rest, hp1, rfl⟩ := pop_eq_ok.mp hfirst
    obtain ⟨hof, rfl⟩ := need_eq_ok.mp h3
    exact ⟨first, second, ops1, ops2, rest, Operand.take?_singleton.mpr ⟨o, hp, hfit⟩, hp2, hp1,
      hof, rfl⟩
  · rintro ⟨first, second, ops1, ops2, rest, hi, hp2, hp1, hof, rfl⟩
    obtain ⟨o, hp, hfit⟩ := Operand.take?_singleton.mp hi
    refine bind_eq_ok.mpr ⟨o, _, popType_eq_ok.mpr ⟨_, hp, hfit, rfl⟩, ?_⟩
    refine bind_eq_ok.mpr ⟨second, _, pop_eq_ok.mpr ⟨_, hp2, rfl⟩, ?_⟩
    exact bind_eq_ok.mpr ⟨first, _, pop_eq_ok.mpr ⟨_, hp1, rfl⟩, need_eq_ok.mpr ⟨hof, rfl⟩⟩

theorem selectNumber_eq_ok (ctx : BodyContext) : selectNumber ⟨[], sc :: os⟩ = .ok () st ↔
      ∃ unr ops, Instr.Moves ctx ((sc :: os).map Scope.branchTypes) .select
        sc.unreachable sc.operands unr ops ∧ st = ⟨[], sc.holding unr ops :: os⟩ := by
  unfold selectNumber
  rw [bind_eq_ok]
  constructor
  · rintro ⟨result, s1, hs, h⟩
    obtain ⟨first, second, _, _, rest, hi, hp2, hp1, hof, rfl⟩ := selectOperand_eq_ok.mp hs
    obtain ⟨hsame, hn, rfl⟩ := selectOf_eq_ok.mp hof
    cases h
    exact ⟨_, _, .select hi hp2 hp1 hsame hn, rfl⟩
  · rintro ⟨unr, ops, h, rfl⟩
    cases h with
    | fixed h => cases h
    | select hi hp2 hp1 hsame hn =>
      have hof := selectOf_eq_ok.mpr ⟨hsame, hn, rfl⟩
      exact ⟨_, _, selectOperand_eq_ok.mpr ⟨_, _, _, _, _, hi, hp2, hp1, hof, rfl⟩, rfl⟩

theorem popRef_eq_ok : popRef ⟨[], sc :: os⟩ = .ok () st ↔
      ∃ rest o, Operand.pop? sc.unreachable sc.operands = some (o, rest) ∧
        (∀ t, o = .known t → t.isRef = true) ∧
        st = ⟨[], sc.keeping rest :: os⟩ := by
  unfold popRef
  rw [bind_eq_ok]
  constructor
  · rintro ⟨o, s1, hpop, h⟩
    obtain ⟨rest, hp, rfl⟩ := pop_eq_ok.mp hpop
    cases o with
    | unknown => cases h; exact ⟨rest, _, hp, (fun _ h => nomatch h), rfl⟩
    | known t =>
      dsimp only at h
      split at h
      · next hr =>
          cases h
          exact ⟨rest, _, hp, fun u hu => by cases hu; exact hr, rfl⟩
      · cases h
  · rintro ⟨rest, o, hp, ho, rfl⟩
    refine ⟨o, _, pop_eq_ok.mpr ⟨rest, hp, rfl⟩, ?_⟩
    cases o with
    | unknown => rfl
    | known t =>
      dsimp only
      rw [if_pos (ho t rfl)]
      rfl

theorem need_ok {α : Type} (a : α) : need (.ok a : Except Fault α) = pure a := rfl

theorem requireSame_self (t : ValueType) : requireSame t t = pure () := if_pos rfl

end Check

open Wasm.Check

variable {i : Instr}

theorem BodyContext.requireData_eq_ok {data : Nat} :
    ctx.requireData data = .ok () ↔ ∀ count, ctx.dataCount = some count → data < count := by
  unfold BodyContext.requireData
  cases ctx.dataCount with
  | none => simp
  | some count =>
    by_cases h : data < count
    · simp [h]
    · simp [h]

theorem Instr.Fixed.check_eq {ps rs : List ValueType} (h : Fixed ctx i ps rs) (labels : Nat) :
    i.check ctx labels = apply ps rs := by
  cases h with
  | memoryInit hm hd =>
    simp only [Instr.check, requireMemory, hm, BodyContext.requireData_eq_ok.mpr hd, need_ok,
      pure_bind]
  | dataDrop hd =>
    simp only [Instr.check, BodyContext.requireData_eq_ok.mpr hd, need_ok]
    rfl
  | load ha hm | store ha hm =>
    simp only [Instr.check, memArg, requireMemory, hm, need_ok, pure_bind, Nat.not_lt.mpr ha,
      if_false]
  | _ =>
    simp only [Instr.check, requireMemory, requireSame_self, need_ok, pure_bind, *, Bool.not_true,
      Bool.false_eq_true, if_false] <;> rfl
def Instr.isPolymorphic : Instr → Bool
  | .unreachable | .br _ | .brIf _ | .brTable _ _ | .ret | .drop | .select | .refIsNull => true
  | _ => false

variable {labels : Nat}

theorem Instr.exists_fixed (hplain : i.isPlain = true) (hpoly : i.isPolymorphic = false)
    (h : i.check ctx labels s = .ok () st) : ∃ ps rs, Fixed ctx i ps rs := by
  cases i with
  | unreachable | br | brIf | brTable | ret | drop | select | refIsNull => cases hpoly
  | block | loop | ifThen | elseArm | endScope => cases hplain
  | nop | selectTyped | i32Const | i64Const | f32Const | f64Const | unary | binary | refNull =>
    exact ⟨_, _, by constructor⟩
  | call _ | localGet _ | localSet _ | localTee _ | globalGet _ | tableGet _ | tableSet _
  | refFunc _ | elemDrop _ | tableGrow _ | tableSize _ | tableFill _ =>
    obtain ⟨_, s1, hn, -⟩ := bind_eq_ok.mp h
    exact ⟨_, _, by constructor; exact (need_eq_ok.mp hn).1⟩
  | globalSet index =>
    obtain ⟨global, s1, hn, h1⟩ := bind_eq_ok.mp h
    cases hm : global.mutable with
    | true => exact ⟨_, _, .globalSet (need_eq_ok.mp hn).1 hm⟩
    | false =>
      simp only [hm, Bool.not_false, if_true] at h1
      cases h1
  | load access arg | store access arg =>
    obtain ⟨⟨⟩, s1, hm, -⟩ := bind_eq_ok.mp h
    obtain ⟨ha, ⟨limits, hl⟩, -⟩ := memArg_eq_ok.mp hm
    exact ⟨_, _, by constructor <;> assumption⟩
  | memorySize memory | memoryGrow memory | memoryFill memory =>
    obtain ⟨⟨⟩, s1, hm, -⟩ := bind_eq_ok.mp h
    obtain ⟨⟨limits, hl⟩, -⟩ := requireMemory_eq_ok.mp hm
    exact ⟨_, _, by constructor; exact hl⟩
  | memoryInit data memory =>
    obtain ⟨⟨⟩, s1, hm, h1⟩ := bind_eq_ok.mp h
    obtain ⟨⟨limits, hl⟩, -⟩ := requireMemory_eq_ok.mp hm
    obtain ⟨⟨⟩, s2, hd, -⟩ := bind_eq_ok.mp h1
    exact ⟨_, _, .memoryInit hl (BodyContext.requireData_eq_ok.mp (need_eq_ok.mp hd).1)⟩
  | dataDrop data =>
    exact ⟨_, _, .dataDrop (BodyContext.requireData_eq_ok.mp (need_eq_ok.mp h).1)⟩
  | memoryCopy dst src =>
    obtain ⟨⟨⟩, s1, hdst, h1⟩ := bind_eq_ok.mp h
    obtain ⟨⟨⟩, s2, hsrc, -⟩ := bind_eq_ok.mp h1
    obtain ⟨⟨limits, hl⟩, -⟩ := requireMemory_eq_ok.mp hdst
    obtain ⟨⟨limits', hl'⟩, -⟩ := requireMemory_eq_ok.mp hsrc
    exact ⟨_, _, .memoryCopy hl hl'⟩
  | callIndirect _ table | tableInit _ table | tableCopy _ table =>
    obtain ⟨_, s1, hs, h1⟩ := bind_eq_ok.mp h
    obtain ⟨_, s2, he, h2⟩ := bind_eq_ok.mp h1
    obtain ⟨⟨⟩, s3, hsame, -⟩ := bind_eq_ok.mp h2
    obtain ⟨rfl, -⟩ := requireSame_eq_ok.mp hsame
    have hs := (need_eq_ok.mp hs).1
    have he := (need_eq_ok.mp he).1
    exact ⟨_, _, by constructor <;> assumption⟩

theorem Instr.check_eq_ok (hplain : i.isPlain = true) :
    i.check ctx labels ⟨[], sc :: os⟩ = .ok () st ↔
      ∃ unr ops, Moves ctx ((sc :: os).map Scope.branchTypes) i sc.unreachable sc.operands unr ops ∧
        st = ⟨[], sc.holding unr ops :: os⟩ := by
  constructor
  · intro h
    by_cases hpoly : i.isPolymorphic = true
    · cases i with
      | unreachable => cases h; exact ⟨_, _, .unreachable, rfl⟩
      | br depth =>
        obtain ⟨⟨⟩, s1, hb, h1⟩ := bind_eq_ok.mp h
        obtain ⟨types, rest, hl, ht, rfl⟩ := branch_eq_ok.mp hb
        cases h1
        exact ⟨_, _, .br hl ht, rfl⟩
      | ret =>
        obtain ⟨s, s1, hget, h1⟩ := bind_eq_ok.mp h
        cases hget
        obtain ⟨⟨⟩, s2, hb, h2⟩ := bind_eq_ok.mp h1
        obtain ⟨types, rest, hl, ht, rfl⟩ := branch_eq_ok.mp hb
        cases h2
        exact ⟨_, _, .ret (by simpa [ControlStack.functionDepth] using hl) ht, rfl⟩
      | brIf depth =>
        obtain ⟨o, s1, hpop, hb⟩ := bind_eq_ok.mp h
        obtain ⟨ops1, hp, hfit, rfl⟩ := popType_eq_ok.mp hpop
        obtain ⟨types, rest, hl, ht, rfl⟩ := branch_eq_ok.mp hb
        have hall : Operand.take? sc.unreachable (types ++ [ValueType.i32]).reverse sc.operands
            = some rest := by
          rw [reverse_append, reverse_singleton, singleton_append, Operand.take?, hp]
          simpa [hfit] using ht
        exact ⟨_, _, .brIf hl hall, rfl⟩
      | brTable depths default => exact (branchTable_eq_ok ctx).mp h
      | drop =>
        obtain ⟨o, s1, hpop, h1⟩ := bind_eq_ok.mp h
        obtain ⟨rest, hp, rfl⟩ := pop_eq_ok.mp hpop
        cases h1
        exact ⟨_, _, .drop hp, rfl⟩
      | select => exact (selectNumber_eq_ok ctx).mp h
      | refIsNull =>
        obtain ⟨⟨⟩, s1, href, h1⟩ := bind_eq_ok.mp h
        obtain ⟨rest, o, hp, ho, rfl⟩ := popRef_eq_ok.mp href
        cases h1
        exact ⟨_, _, .refIsNull hp ho, rfl⟩
      | _ => cases hpoly
    · obtain ⟨ps, rs, hf⟩ := exists_fixed hplain (Bool.not_eq_true _ ▸ hpoly) h
      rw [hf.check_eq] at h
      obtain ⟨rest, ht, rfl⟩ := apply_eq_ok.mp h
      exact ⟨_, _, .fixed hf ht, rfl⟩
  · rintro ⟨unr, ops, h, rfl⟩
    cases h with
    | fixed hf ht =>
      rw [hf.check_eq]
      exact apply_eq_ok.mpr ⟨_, ht, rfl⟩
    | unreachable => rfl
    | br hl ht => exact bind_eq_ok.mpr ⟨(), _, branch_eq_ok.mpr ⟨_, _, hl, ht, rfl⟩, rfl⟩
    | ret hl ht =>
      refine bind_eq_ok.mpr ⟨_, _, rfl, ?_⟩
      refine bind_eq_ok.mpr ⟨(), _, branch_eq_ok.mpr ⟨_, _, ?_, ht, rfl⟩, rfl⟩
      simpa [ControlStack.functionDepth] using hl
    | brIf hl ht =>
      rw [reverse_append, Operand.take?_append, Option.bind_eq_some_iff] at ht
      obtain ⟨ops1, hi, ht⟩ := ht
      obtain ⟨o, hp, hfit⟩ := Operand.take?_singleton.mp hi
      exact bind_eq_ok.mpr ⟨o, _, popType_eq_ok.mpr ⟨_, hp, hfit, rfl⟩,
        branch_eq_ok.mpr ⟨_, _, hl, ht, rfl⟩⟩
    | brTable hi hl hm hall => exact (branchTable_eq_ok ctx).mpr ⟨_, _, .brTable hi hl hm hall, rfl⟩
    | drop hp => exact bind_eq_ok.mpr ⟨_, _, pop_eq_ok.mpr ⟨_, hp, rfl⟩, rfl⟩
    | select hi hp2 hp1 hs hn =>
      exact (selectNumber_eq_ok ctx).mpr ⟨_, _, .select hi hp2 hp1 hs hn, rfl⟩
    | refIsNull hp ho =>
      exact bind_eq_ok.mpr ⟨(), _, popRef_eq_ok.mpr ⟨_, _, hp, ho, rfl⟩, rfl⟩

end Wasm
