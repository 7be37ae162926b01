import Wasm.Proofs.Sequencing
import Wasm.Validation.Check

/-! # Checks of the innermost scope

Checks that open and close no scope touch the innermost one alone. -/

namespace Wasm

open List

variable {ts : List ValueType} {o : Operand}

/-- Operands of known types. -/
def known (types : List ValueType) : List Operand := types.map .known

@[simp] theorem known_nil : known [] = [] := rfl

@[simp] theorem known_cons (t : ValueType) (ts : List ValueType) :
    known (t :: ts) = .known t :: known ts := rfl

@[simp] theorem known_append (ts us : List ValueType) :
    known (ts ++ us) = known ts ++ known us := map_append

@[simp] theorem length_known (ts : List ValueType) : (known ts).length = ts.length :=
  length_map _

theorem known_reverse (ts : List ValueType) : known ts.reverse = (known ts).reverse :=
  map_reverse

theorem known_injective {us : List ValueType} (h : known ts = known us) : ts = us :=
  List.map_inj_right (fun _ _ e => Operand.known.inj e) |>.mp h

namespace Operand

/-- Whether an operand may stand for a type. -/
def fits (operand : Operand) (type : ValueType) : Bool :=
  match operand with
  | known found => found = type
  | unknown => true

@[simp] theorem fits_known (t u : ValueType) : (known t).fits u = decide (t = u) := rfl

@[simp] theorem fits_unknown (t : ValueType) : unknown.fits t = true := rfl

/-- The top operand and the rest; there is one out of reach. -/
def pop? (unreachable : Bool) : List Operand → Option (Operand × List Operand)
  | operand :: rest => some (operand, rest)
  | [] => if unreachable then some (unknown, []) else none

/-- What is left when operands of these types are taken. -/
def take? (unreachable : Bool) : List ValueType → List Operand → Option (List Operand)
  | [], operands => some operands
  | type :: types, operands =>
    match pop? unreachable operands with
    | some (operand, rest) => if operand.fits type then take? unreachable types rest else none
    | none => none

@[simp] theorem pop?_cons (unr : Bool) (o : Operand) (ops : List Operand) :
    pop? unr (o :: ops) = some (o, ops) := rfl

@[simp] theorem pop?_nil_true : pop? true [] = some (unknown, []) := rfl

@[simp] theorem pop?_nil_false : pop? false [] = none := rfl

@[simp] theorem take?_nil (unr : Bool) (ops : List Operand) : take? unr [] ops = some ops := rfl

theorem take?_append (unr : Bool) (ts us : List ValueType) (ops : List Operand) :
    take? unr (ts ++ us) ops = (take? unr ts ops).bind (take? unr us) := by
  induction ts generalizing ops with
  | nil => rfl
  | cons t ts ih =>
    rw [cons_append, take?, take?]
    cases pop? unr ops with
    | none => rfl
    | some p =>
      obtain ⟨o, rest⟩ := p
      by_cases h : o.fits t
      · simp only [h, if_true, ih]
      · simp only [h, Bool.false_eq_true, if_false, Option.bind_none]

theorem eq_append_of_take? {ops rest : List Operand} (hk : ∀ o ∈ ops, o ≠ unknown)
    (h : take? false ts ops = some rest) : ops = Wasm.known ts ++ rest := by
  induction ts generalizing ops with
  | nil => exact Option.some.inj h
  | cons t ts ih =>
    cases ops with
    | nil => cases h
    | cons o ops =>
      cases o with
      | unknown => exact absurd rfl (hk unknown mem_cons_self)
      | known u =>
        rw [take?, pop?_cons] at h
        by_cases hu : u = t
        · subst hu
          have h' : take? false ts ops = some rest := by simpa using h
          have hops := ih (fun o ho => hk o (mem_cons_of_mem _ ho)) h'
          rw [known_cons, cons_append, ← hops]
        · simp [hu] at h

end Operand

/-- A scope with other operands and another mark. -/
def Scope.holding (scope : Scope) (unreachable : Bool) (operands : List Operand) : Scope :=
  { scope with unreachable, operands }

/-- A scope with other operands. -/
abbrev Scope.keeping (scope : Scope) (operands : List Operand) : Scope :=
  scope.holding scope.unreachable operands

namespace Scope

variable (sc : Scope) (unr unr' : Bool) (ops ops' : List Operand)

@[simp] theorem holding_kind : (sc.holding unr ops).kind = sc.kind := rfl
@[simp] theorem holding_params : (sc.holding unr ops).params = sc.params := rfl
@[simp] theorem holding_results : (sc.holding unr ops).results = sc.results := rfl
@[simp] theorem holding_label : (sc.holding unr ops).label = sc.label := rfl
@[simp] theorem holding_endLabel : (sc.holding unr ops).endLabel = sc.endLabel := rfl
@[simp] theorem holding_elseLabel : (sc.holding unr ops).elseLabel = sc.elseLabel := rfl
@[simp] theorem holding_unreachable : (sc.holding unr ops).unreachable = unr := rfl
@[simp] theorem holding_dead : (sc.holding unr ops).dead = sc.dead := rfl
@[simp] theorem holding_operands : (sc.holding unr ops).operands = ops := rfl
@[simp] theorem holding_branchTypes : (sc.holding unr ops).branchTypes = sc.branchTypes := rfl
@[simp] theorem holding_holding :
    (sc.holding unr ops).holding unr' ops' = sc.holding unr' ops' := rfl
@[simp] theorem holding_self : sc.holding sc.unreachable sc.operands = sc := rfl

end Scope

namespace Check

variable {sc : Scope} {os : List Scope} {st : ControlStack}

theorem need_eq_ok {α : Type} {x : Except Fault α} {s : ControlStack} {a : α} :
    need x s = .ok a st ↔ x = .ok a ∧ st = s := by
  cases x with
  | ok b =>
    constructor
    · intro h; cases h; exact ⟨rfl, rfl⟩
    · rintro ⟨h, rfl⟩; cases h; rfl
  | error f =>
    constructor
    · intro h; cases h
    · rintro ⟨h, -⟩; cases h

theorem push_apply (o : Operand) :
    push o ⟨[], sc :: os⟩ = .ok () ⟨[], sc.keeping (o :: sc.operands) :: os⟩ := rfl

theorem pushType_apply (t : ValueType) : pushType t ⟨[], sc :: os⟩ =
      .ok () ⟨[], sc.keeping (.known t :: sc.operands) :: os⟩ := rfl

theorem pushTypes_apply (ts : List ValueType) : pushTypes ts ⟨[], sc :: os⟩ =
      .ok () ⟨[], sc.keeping ((known ts).reverse ++ sc.operands) :: os⟩ := by
  induction ts generalizing sc with
  | nil => rfl
  | cons t ts ih =>
    rw [pushTypes, bind_of_ok (pushType_apply t), ih]
    simp

theorem pushMany_apply (ops : List Operand) : pushMany ops ⟨[], sc :: os⟩ =
      .ok () ⟨[], sc.keeping (ops.reverse ++ sc.operands) :: os⟩ := by
  induction ops generalizing sc with
  | nil => rfl
  | cons o ops ih =>
    rw [pushMany, bind_of_ok (push_apply o), ih]
    simp

theorem pop_eq_ok : pop ⟨[], sc :: os⟩ = .ok o st ↔
      ∃ rest, Operand.pop? sc.unreachable sc.operands = some (o, rest) ∧
        st = ⟨[], sc.keeping rest :: os⟩ := by
  obtain ⟨kind, ps, rs, label, endLabel, elseLabel, unr, dead, ops⟩ := sc
  cases ops with
  | cons p rest =>
    constructor
    · intro h; cases h; exact ⟨rest, rfl, rfl⟩
    · rintro ⟨r, h, rfl⟩; cases h; rfl
  | nil =>
    cases unr with
    | true =>
      constructor
      · intro h; cases h; exact ⟨[], rfl, rfl⟩
      · rintro ⟨r, h, rfl⟩; cases h; rfl
    | false =>
      constructor
      · intro h; cases h
      · rintro ⟨r, h, -⟩; cases h

theorem popType_eq_ok {t : ValueType} : popType t ⟨[], sc :: os⟩ = .ok o st ↔
      ∃ rest, Operand.pop? sc.unreachable sc.operands = some (o, rest) ∧ o.fits t = true ∧
        st = ⟨[], sc.keeping rest :: os⟩ := by
  unfold popType
  rw [bind_eq_ok]
  constructor
  · rintro ⟨p, s1, hp, h⟩
    obtain ⟨rest, hpop, rfl⟩ := pop_eq_ok.mp hp
    cases p with
    | unknown => cases h; exact ⟨rest, hpop, rfl, rfl⟩
    | known u =>
      dsimp only at h
      by_cases hu : u = t
      · rw [if_pos hu] at h
        cases h
        exact ⟨rest, hpop, by simp [hu], rfl⟩
      · rw [if_neg hu] at h
        cases h
  · rintro ⟨rest, hpop, hfit, rfl⟩
    refine ⟨o, _, pop_eq_ok.mpr ⟨rest, hpop, rfl⟩, ?_⟩
    cases o with
    | unknown => rfl
    | known u =>
      have hu : u = t := by simpa using hfit
      dsimp only
      rw [if_pos hu]
      rfl

theorem popTopDown_eq_ok : popTopDown ts ⟨[], sc :: os⟩ = .ok () st ↔
      ∃ rest, Operand.take? sc.unreachable ts sc.operands = some rest ∧
        st = ⟨[], sc.keeping rest :: os⟩ := by
  induction ts generalizing sc with
  | nil =>
    constructor
    · intro h; cases h; exact ⟨sc.operands, rfl, rfl⟩
    · rintro ⟨rest, h, rfl⟩; cases h; rfl
  | cons t ts ih =>
    rw [popTopDown, bind_eq_ok]
    constructor
    · rintro ⟨o, s1, hpop, h⟩
      obtain ⟨r1, hp, hfit, rfl⟩ := popType_eq_ok.mp hpop
      obtain ⟨rest, ht, rfl⟩ := ih.mp h
      refine ⟨rest, ?_, rfl⟩
      rw [Operand.take?, hp]
      simpa [hfit] using ht
    · rintro ⟨rest, ht, rfl⟩
      rw [Operand.take?] at ht
      cases hp : Operand.pop? sc.unreachable sc.operands with
      | none => rw [hp] at ht; cases ht
      | some p =>
        obtain ⟨o, r1⟩ := p
        rw [hp] at ht
        by_cases hfit : o.fits t = true
        · refine ⟨o, _, popType_eq_ok.mpr ⟨r1, hp, hfit, rfl⟩, ih.mpr ⟨rest, ?_, rfl⟩⟩
          simpa [hfit] using ht
        · simp [hfit] at ht

theorem popTypes_eq_ok : popTypes ts ⟨[], sc :: os⟩ = .ok () st ↔
      ∃ rest, Operand.take? sc.unreachable ts.reverse sc.operands = some rest ∧
        st = ⟨[], sc.keeping rest :: os⟩ :=
  popTopDown_eq_ok

theorem apply_eq_ok {ps rs : List ValueType} : apply ps rs ⟨[], sc :: os⟩ = .ok () st ↔
      ∃ rest, Operand.take? sc.unreachable ps.reverse sc.operands = some rest ∧
        st = ⟨[], sc.keeping ((known rs).reverse ++ rest) :: os⟩ := by
  unfold apply
  rw [bind_eq_ok]
  constructor
  · rintro ⟨⟨⟩, s1, hpop, h⟩
    obtain ⟨rest, ht, rfl⟩ := popTypes_eq_ok.mp hpop
    rw [pushTypes_apply] at h
    cases h
    exact ⟨rest, ht, rfl⟩
  · rintro ⟨rest, ht, rfl⟩
    exact ⟨(), _, popTypes_eq_ok.mpr ⟨rest, ht, rfl⟩, pushTypes_apply rs⟩

end Check

end Wasm
