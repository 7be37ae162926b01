import Wasm.Proofs.Validation.Step

/-! # Opening, switching and closing scopes

An opening bracket pops the parameters, a closing one requires exactly the results. -/

namespace Wasm

open Operand

/-- Whether code at the end of a scope is kept. -/
def Scope.isEmitting (scope : Scope) : Bool := !scope.unreachable && !scope.dead

/-- The scope that is opened inside another. -/
def Scope.inner (scope : Scope) (kind : ScopeKind) (type : FuncType) (label endLabel : Label)
    (elseLabel : Option Label) : Scope where
  kind := kind
  params := type.params
  results := type.results
  label := label
  endLabel := endLabel
  elseLabel := elseLabel
  unreachable := false
  dead := !scope.isEmitting
  operands := (known type.params).reverse

/-- What a `block` opens, in front of which there are `n` labels. -/
abbrev Scope.block (scope : Scope) (type : FuncType) (n : Nat) : Scope :=
  scope.inner .block type ⟨n⟩ ⟨n⟩ none

/-- What a `loop` opens: its own label is the second that is made. -/
abbrev Scope.loop (scope : Scope) (type : FuncType) (n : Nat) : Scope :=
  scope.inner .loop type ⟨n + 1⟩ ⟨n⟩ none

/-- What an `if` opens: the second label is that of the other arm. -/
abbrev Scope.ifThen (scope : Scope) (type : FuncType) (n : Nat) : Scope :=
  scope.inner .ifThen type ⟨n⟩ ⟨n⟩ (some ⟨n + 1⟩)

/-- The scope of an `if` at the start of its second arm. -/
def Scope.toElse (scope : Scope) : Scope where
  kind := .elseArm
  params := scope.params
  results := scope.results
  label := scope.label
  endLabel := scope.endLabel
  elseLabel := none
  unreachable := false
  dead := scope.dead
  operands := (known scope.params).reverse

/-- What a scope holds are its results. -/
def Scope.Closes (scope : Scope) : Prop :=
  take? scope.unreachable scope.results.reverse scope.operands = some []

namespace Check

variable {sc : Scope} {os : List Scope} {st : ControlStack}

theorem openScope_eq_ok {kind : ScopeKind} {type : FuncType} {label endLabel : Label}
    {elseLabel : Option Label} :
    openScope kind type.params type.results label endLabel elseLabel ⟨[], sc :: os⟩ = .ok () st ↔
      ∃ rest, take? sc.unreachable type.params.reverse sc.operands = some rest ∧
        st = ⟨[], sc.inner kind type label endLabel elseLabel :: sc.keeping rest :: os⟩ := by
  unfold openScope
  rw [bind_eq_ok]
  constructor
  · rintro ⟨s, s1, hget, h⟩
    cases hget
    obtain ⟨⟨⟩, s2, hpop, h2⟩ := bind_eq_ok.mp h
    obtain ⟨rest, ht, rfl⟩ := popTypes_eq_ok.mp hpop
    cases h2
    exact ⟨rest, ht, by rw [Scope.inner, ← known_reverse]; rfl⟩
  · rintro ⟨rest, ht, rfl⟩
    refine ⟨_, _, rfl, bind_eq_ok.mpr ⟨(), _, popTypes_eq_ok.mpr ⟨rest, ht, rfl⟩, ?_⟩⟩
    rw [Scope.inner, ← known_reverse]
    rfl

theorem popResults_eq_ok : popResults ⟨[], sc :: os⟩ = .ok () st ↔
      sc.Closes ∧ st = ⟨[], sc.keeping [] :: os⟩ := by
  unfold popResults
  rw [bind_eq_ok]
  constructor
  · rintro ⟨s, s1, hget, h⟩
    cases hget
    obtain ⟨scope, s2, hin, h2⟩ := bind_eq_ok.mp h
    cases hin
    obtain ⟨⟨⟩, s3, hpop, h3⟩ := bind_eq_ok.mp h2
    obtain ⟨rest, ht, rfl⟩ := popTypes_eq_ok.mp hpop
    obtain ⟨s', s4, hget', h4⟩ := bind_eq_ok.mp h3
    cases hget'
    obtain ⟨scope', s5, hin', h5⟩ := bind_eq_ok.mp h4
    cases hin'
    cases rest with
    | nil => cases h5; exact ⟨ht, rfl⟩
    | cons o rest =>
      cases h5
  · rintro ⟨ht, rfl⟩
    refine ⟨_, _, rfl, bind_eq_ok.mpr ⟨sc, _, rfl, ?_⟩⟩
    refine bind_eq_ok.mpr ⟨(), _, popTypes_eq_ok.mpr ⟨[], ht, rfl⟩, ?_⟩
    exact bind_eq_ok.mpr ⟨_, _, rfl, bind_eq_ok.mpr ⟨_, _, rfl, rfl⟩⟩

theorem switchToElse_eq_ok {scope : Scope} : switchToElse ⟨[], sc :: os⟩ = .ok scope st ↔
      sc.kind = .ifThen ∧ sc.Closes ∧ scope = sc.keeping [] ∧ st = ⟨[], sc.toElse :: os⟩ := by
  unfold switchToElse
  rw [bind_eq_ok]
  constructor
  · rintro ⟨s, s1, hget, h⟩
    cases hget
    obtain ⟨scope', s2, hin, h2⟩ := bind_eq_ok.mp h
    cases hin
    by_cases hk : sc.kind = .ifThen
    · simp only [hk, ne_eq, not_true_eq_false, if_false] at h2
      obtain ⟨⟨⟩, s3, hpop, h3⟩ := bind_eq_ok.mp h2
      obtain ⟨hc, rfl⟩ := popResults_eq_ok.mp hpop
      cases h3
      exact ⟨hk, hc, rfl, by rw [Scope.toElse, ← known_reverse]; rfl⟩
    · simp only [hk, ne_eq, not_false_eq_true, if_true] at h2
      cases h2
  · rintro ⟨hk, hc, rfl, rfl⟩
    refine ⟨_, _, rfl, bind_eq_ok.mpr ⟨sc, _, rfl, ?_⟩⟩
    simp only [hk, ne_eq, not_true_eq_false, if_false]
    refine bind_eq_ok.mpr ⟨(), _, popResults_eq_ok.mpr ⟨hc, rfl⟩, ?_⟩
    rw [Scope.toElse, ← known_reverse]
    rfl

theorem closeScope_eq_ok {scope : Scope} : closeScope ⟨[], sc :: os⟩ = .ok scope st ↔
      (sc.kind = .ifThen → sc.params = sc.results) ∧ sc.Closes ∧
        scope = sc.keeping [] ∧ pushTypes sc.results ⟨[], os⟩ = .ok () st := by
  unfold closeScope
  rw [bind_eq_ok]
  constructor
  · rintro ⟨s, s1, hget, h⟩
    cases hget
    obtain ⟨scope', s2, hin, h2⟩ := bind_eq_ok.mp h
    cases hin
    by_cases hk : sc.kind = .ifThen ∧ sc.params ≠ sc.results
    · simp only [hk, ne_eq, not_false_eq_true, and_self, if_true] at h2
      cases h2
    · simp only [hk, if_false] at h2
      obtain ⟨⟨⟩, s3, hpop, h3⟩ := bind_eq_ok.mp h2
      obtain ⟨hc, rfl⟩ := popResults_eq_ok.mp hpop
      obtain ⟨s', s4, hget', h4⟩ := bind_eq_ok.mp h3
      cases hget'
      obtain ⟨closed, s5, hin', h5⟩ := bind_eq_ok.mp h4
      cases hin'
      obtain ⟨⟨⟩, s6, hmod, h6⟩ := bind_eq_ok.mp h5
      cases hmod
      obtain ⟨⟨⟩, s7, hpush, h7⟩ := bind_eq_ok.mp h6
      cases h7
      refine ⟨?_, hc, rfl, hpush⟩
      intro hk'
      exact Classical.byContradiction fun hne => hk ⟨hk', hne⟩
  · rintro ⟨hk, hc, rfl, hpush⟩
    refine ⟨_, _, rfl, bind_eq_ok.mpr ⟨sc, _, rfl, ?_⟩⟩
    have hk' : ¬ (sc.kind = .ifThen ∧ sc.params ≠ sc.results) := fun h => h.2 (hk h.1)
    simp only [hk', if_false]
    refine bind_eq_ok.mpr ⟨(), _, popResults_eq_ok.mpr ⟨hc, rfl⟩, ?_⟩
    refine bind_eq_ok.mpr ⟨_, _, rfl, bind_eq_ok.mpr ⟨_, _, rfl, ?_⟩⟩
    exact bind_eq_ok.mpr ⟨(), _, rfl, bind_eq_ok.mpr ⟨(), _, hpush, rfl⟩⟩

theorem pushTypes_apply_nil (ts : List ValueType) (base : List Operand) :
    pushTypes ts ⟨base, []⟩ = .ok () ⟨(known ts).reverse ++ base, []⟩ := by
  induction ts generalizing base with
  | nil => rfl
  | cons t ts ih =>
    have h : pushType t ⟨base, []⟩ = .ok () ⟨.known t :: base, []⟩ := rfl
    rw [pushTypes, bind_of_ok h, ih]
    simp

end Check

open Check

namespace Instr

variable {ctx : BodyContext} {n : Nat} {sc : Scope} {os : List Scope} {st : ControlStack}

/-- What a passing instruction does to the open scopes. -/
inductive Checks (ctx : BodyContext) (n : Nat) :
    Instr → Scope → List Scope → ControlStack → Prop
  | plain {i sc os unr ops} (hi : i.isPlain = true)
      (hm : Moves ctx ((sc :: os).map Scope.branchTypes) i sc.unreachable sc.operands unr ops) :
      Checks ctx n i sc os ⟨[], sc.holding unr ops :: os⟩
  | block {bt type rest sc os} (ht : ctx.spaces.blockType bt = .ok type)
      (hp : take? sc.unreachable type.params.reverse sc.operands = some rest) :
      Checks ctx n (.block bt) sc os ⟨[], sc.block type n :: sc.keeping rest :: os⟩
  | loop {bt type rest sc os} (ht : ctx.spaces.blockType bt = .ok type)
      (hp : take? sc.unreachable type.params.reverse sc.operands = some rest) :
      Checks ctx n (.loop bt) sc os ⟨[], sc.loop type n :: sc.keeping rest :: os⟩
  | ifThen {bt type rest sc os} (ht : ctx.spaces.blockType bt = .ok type)
      (hp : take? sc.unreachable (type.params ++ [ValueType.i32]).reverse sc.operands = some rest) :
      Checks ctx n (.ifThen bt) sc os ⟨[], sc.ifThen type n :: sc.keeping rest :: os⟩
  | elseArm {sc : Scope} {os : List Scope} (hk : sc.kind = .ifThen) (hc : sc.Closes) :
      Checks ctx n .elseArm sc os ⟨[], sc.toElse :: os⟩
  | endScope {sc o os} (hk : sc.kind = .ifThen → sc.params = sc.results) (hc : sc.Closes) :
      Checks ctx n .endScope sc (o :: os)
        ⟨[], o.keeping ((known sc.results).reverse ++ o.operands) :: os⟩
  | last {sc : Scope} (hk : sc.kind = .ifThen → sc.params = sc.results) (hc : sc.Closes) :
      Checks ctx n .endScope sc [] ⟨(known sc.results).reverse, []⟩

theorem check_iff {i : Instr} :
    i.check ctx n ⟨[], sc :: os⟩ = .ok () st ↔ i.Checks ctx n sc os st := by
  constructor
  · intro h
    by_cases hi : i.isPlain = true
    · obtain ⟨unr, ops, hm, rfl⟩ := (check_eq_ok hi).mp h
      exact .plain hi hm
    cases i with
    | block bt =>
      obtain ⟨type, s1, hn, h⟩ := bind_eq_ok.mp h
      obtain ⟨ht, rfl⟩ := need_eq_ok.mp hn
      obtain ⟨rest, hp, rfl⟩ := openScope_eq_ok.mp h
      exact .block ht hp
    | loop bt =>
      obtain ⟨type, s1, hn, h⟩ := bind_eq_ok.mp h
      obtain ⟨ht, rfl⟩ := need_eq_ok.mp hn
      obtain ⟨rest, hp, rfl⟩ := openScope_eq_ok.mp h
      exact .loop ht hp
    | ifThen bt =>
      obtain ⟨type, s1, hn, h⟩ := bind_eq_ok.mp h
      obtain ⟨ht, rfl⟩ := need_eq_ok.mp hn
      obtain ⟨o, s2, hpop, h2⟩ := bind_eq_ok.mp h
      obtain ⟨ops1, hp, hfit, rfl⟩ := popType_eq_ok.mp hpop
      obtain ⟨rest, hr, rfl⟩ := openScope_eq_ok.mp h2
      refine .ifThen ht ?_
      rw [List.reverse_append, take?_append,
        List.reverse_singleton, take?_singleton.mpr ⟨o, hp, hfit⟩]
      exact hr
    | elseArm =>
      obtain ⟨scope, s1, h, h'⟩ := bind_eq_ok.mp h
      obtain ⟨hk, hc, -, rfl⟩ := switchToElse_eq_ok.mp h
      cases h'
      exact .elseArm hk hc
    | endScope =>
      obtain ⟨scope, s1, h, h'⟩ := bind_eq_ok.mp h
      obtain ⟨hk, hc, -, hpush⟩ := closeScope_eq_ok.mp h
      cases h'
      cases os with
      | nil =>
        rw [pushTypes_apply_nil, List.append_nil] at hpush
        cases hpush
        exact .last hk hc
      | cons o os =>
        rw [pushTypes_apply] at hpush
        cases hpush
        exact .endScope hk hc
    | _ => exact absurd rfl hi
  · intro h
    cases h with
    | plain hi hm => exact (check_eq_ok hi).mpr ⟨_, _, hm, rfl⟩
    | block ht hp | loop ht hp =>
      exact bind_eq_ok.mpr ⟨_, _, need_eq_ok.mpr ⟨ht, rfl⟩, openScope_eq_ok.mpr ⟨_, hp, rfl⟩⟩
    | ifThen ht hp =>
      rw [List.reverse_append, take?_append, Option.bind_eq_some_iff] at hp
      obtain ⟨ops1, hi, hr⟩ := hp
      obtain ⟨o, hp, hfit⟩ := take?_singleton.mp hi
      refine bind_eq_ok.mpr ⟨_, _, need_eq_ok.mpr ⟨ht, rfl⟩, ?_⟩
      refine bind_eq_ok.mpr ⟨o, _, popType_eq_ok.mpr ⟨_, hp, hfit, rfl⟩, ?_⟩
      exact openScope_eq_ok.mpr ⟨_, hr, rfl⟩
    | elseArm hk hc =>
      exact bind_eq_ok.mpr ⟨_, _, switchToElse_eq_ok.mpr ⟨hk, hc, rfl, rfl⟩, rfl⟩
    | endScope hk hc =>
      exact bind_eq_ok.mpr ⟨_, _, closeScope_eq_ok.mpr ⟨hk, hc, rfl, pushTypes_apply _⟩, rfl⟩
    | last hk hc =>
      refine bind_eq_ok.mpr ⟨_, _, closeScope_eq_ok.mpr ⟨hk, hc, rfl, ?_⟩, rfl⟩
      rw [pushTypes_apply_nil, List.append_nil]

end Instr

end Wasm
