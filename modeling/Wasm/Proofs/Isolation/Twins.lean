import Mathlib.Data.List.Forall2
import Wasm.Proofs.Machine.Frames

/-! # Twin instances

Two instances of one module without imports, each in a store of its own, in the same state but for
addresses (`Twins.In`). -/

namespace Wasm

open List

/-! ## Values that are alike -/

/-- The same but for functions, which `R` relates. -/
inductive Value.Alike (R : FuncAddr → FuncAddr → Prop) : Value → Value → Prop
  | i32 (word : BitVec 32) : Alike R (.i32 word) (.i32 word)
  | i64 (word : BitVec 64) : Alike R (.i64 word) (.i64 word)
  | f32 (bits : BitVec 32) : Alike R (.f32 bits) (.f32 bits)
  | f64 (bits : BitVec 64) : Alike R (.f64 bits) (.f64 bits)
  | funcRef {f f' : Option FuncAddr} (h : Option.Rel R f f') : Alike R (.funcRef f) (.funcRef f')
  | externRef (host : Option (BitVec 32)) : Alike R (.externRef host) (.externRef host)
  | bundle {vs vs' : List Value} (h : Forall₂ (Alike R) vs vs') :
      Alike R (.bundle vs) (.bundle vs')

/-- A value without a reference to a function in it. -/
inductive Value.Free : Value → Prop
  | i32 (word : BitVec 32) : Free (.i32 word)
  | i64 (word : BitVec 64) : Free (.i64 word)
  | f32 (bits : BitVec 32) : Free (.f32 bits)
  | f64 (bits : BitVec 64) : Free (.f64 bits)
  | null : Free (.funcRef none)
  | externRef (host : Option (BitVec 32)) : Free (.externRef host)
  | bundle {vs : List Value} (h : ∀ v ∈ vs, Free v) : Free (.bundle vs)

variable {R : FuncAddr → FuncAddr → Prop}

theorem Value.Free.alike {v : Value} (h : v.Free) : v.Alike R v := by
  induction h with
  | i32 word => exact .i32 word
  | i64 word => exact .i64 word
  | f32 bits => exact .f32 bits
  | f64 bits => exact .f64 bits
  | null => exact .funcRef .none
  | externRef host => exact .externRef host
  | bundle _ ih => exact .bundle (forall₂_same.mpr ih)

theorem Value.free_zero (type : ValueType) : (zero type).Free := by
  cases type <;> constructor

mutual

theorem Value.Alike.eq {R : FuncAddr → FuncAddr → Prop} (hR : ∀ f f', R f f' → f = f')
    {v v' : Value} (h : v.Alike R v') : v = v' := by
  cases h with
  | i32 | i64 | f32 | f64 | externRef => rfl
  | funcRef h =>
    cases h with
    | some h => rw [hR _ _ h]
    | none => rfl
  | bundle h => rw [Value.Alike.eq_list hR h]

theorem Value.Alike.eq_list {R : FuncAddr → FuncAddr → Prop} (hR : ∀ f f', R f f' → f = f')
    {vs vs' : List Value} (h : Forall₂ (Value.Alike R) vs vs') : vs = vs' := by
  cases h with
  | nil => rfl
  | cons h hs => rw [Value.Alike.eq hR h, Value.Alike.eq_list hR hs]

end

/-- The same but for functions, which `R` relates. -/
inductive Ref.Alike (R : FuncAddr → FuncAddr → Prop) : Ref → Ref → Prop
  | func {f f' : FuncAddr} (h : R f f') : Alike R (.func f) (.func f')
  | host (id : BitVec 32) : Alike R (.host id) (.host id)

/-- The entries are both null, or alike. -/
abbrev EntriesAlike (R : FuncAddr → FuncAddr → Prop) (es es' : List (Option Ref)) : Prop :=
  Forall₂ (Option.Rel (Ref.Alike R)) es es'

theorem EntriesAlike.eq (hR : ∀ f f', R f f' → f = f') {es es' : List (Option Ref)}
    (h : EntriesAlike R es es') : es = es' := by
  have hentry : ∀ e e' : Option Ref, Option.Rel (Ref.Alike R) e e' → e = e' := by
    rintro _ _ (⟨⟨hf⟩ | _⟩ | _)
    · rw [hR _ _ hf]
    · rfl
    · rfl
  exact forall₂_eq_eq_eq ▸ h.imp hentry

/-- Tables that are the same but for functions. -/
structure Table.Alike (R : FuncAddr → FuncAddr → Prop) (t t' : Table Ref) : Prop where
  maximum : t'.maximum = t.maximum
  entries : EntriesAlike R t.entries.toList t'.entries.toList

/-- Typed tables that are the same but for functions. -/
structure TableInst.Alike (R : FuncAddr → FuncAddr → Prop) (t t' : TableInst) : Prop where
  element : t'.element = t.element
  table : t.table.Alike R t'.table

theorem TableInst.Alike.eq (hR : ∀ f f', R f f' → f = f') {t t' : TableInst} (h : t.Alike R t') :
    t = t' := by
  obtain ⟨helement, hmaximum, hentries⟩ := h
  have heq : t.table.entries = t'.table.entries := Array.toList_inj.mp (EntriesAlike.eq hR hentries)
  obtain ⟨element, entries, maximum⟩ := t
  obtain ⟨element', entries', maximum'⟩ := t'
  cases helement
  cases hmaximum
  cases heq
  rfl

/-! ## Addresses side by side -/

section Addresses

variable {α β : Type} {xs xs' : Array α}

/-- Two addresses stand at the same place of two lists. -/
def Beside (xs xs' : Array α) (a a' : α) : Prop := ∃ i : Nat, xs[i]? = some a ∧ xs'[i]? = some a'

/-- Lists of equal length without repetitions. -/
structure Aligned (xs xs' : Array α) : Prop where
  size : xs'.size = xs.size
  left : ∀ (i j : Nat) (a : α), xs[i]? = some a → xs[j]? = some a → i = j
  right : ∀ (i j : Nat) (a : α), xs'[i]? = some a → xs'[j]? = some a → i = j

namespace Aligned

theorem getElem? (h : Aligned xs xs') (i : Nat) : Option.Rel (Beside xs xs') xs[i]? xs'[i]? := by
  by_cases hi : i < xs.size
  · have hi' : i < xs'.size := h.size ▸ hi
    rw [Array.getElem?_eq_getElem hi, Array.getElem?_eq_getElem hi']
    exact .some ⟨i, Array.getElem?_eq_getElem hi, Array.getElem?_eq_getElem hi'⟩
  · have hi' : ¬ i < xs'.size := h.size ▸ hi
    rw [Array.getElem?_eq_none (by omega), Array.getElem?_eq_none (by omega)]
    exact .none

theorem eq_iff (h : Aligned xs xs') {a a' b b' : α} (ha : Beside xs xs' a a')
    (hb : Beside xs xs' b b') : a = b ↔ a' = b' := by
  obtain ⟨i, hi, hi'⟩ := ha
  obtain ⟨j, hj, hj'⟩ := hb
  constructor
  · rintro rfl
    obtain rfl := h.left i j a hi hj
    exact Option.some.inj (hi'.symm.trans hj')
  · rintro rfl
    obtain rfl := h.right i j a' hi' hj'
    exact Option.some.inj (hi.symm.trans hj)

end Aligned

/-- Objects at the same places are related. -/
def Matched (index : α → Nat) (R : β → β → Prop) (xs xs' : Array α) (objs objs' : Array β) : Prop :=
  ∀ a a', Beside xs xs' a a' → ∃ o o', objs[index a]? = some o ∧ objs'[index a']? = some o' ∧ R o o'

namespace Matched

variable {index : α → Nat} {R : β → β → Prop} {objs objs' objs1 objs1' : Array β} {a a' : α}
  {o o' : β}

variable (h : Matched index R xs xs' objs objs')
include h

theorem update (hal : Aligned xs xs') (hindex : Function.Injective index)
    (ha : Beside xs xs' a a') (hnew : ∀ k, objs1[k]? = if index a = k then some o else objs[k]?)
    (hnew' : ∀ k, objs1'[k]? = if index a' = k then some o' else objs'[k]?) (hR : R o o') :
    Matched index R xs xs' objs1 objs1' := by
  intro b b' hb
  rw [hnew, hnew']
  -- No address is listed twice, so the two objects at `b` are both the new ones or both old.
  by_cases heq : a = b
  · have heq' : a' = b' := (hal.eq_iff ha hb).mp heq
    rw [if_pos (congrArg index heq), if_pos (congrArg index heq')]
    exact ⟨o, o', rfl, rfl, hR⟩
  · have hne' : a' ≠ b' := fun h' => heq ((hal.eq_iff ha hb).mpr h')
    rw [if_neg (fun h' => heq (hindex h')), if_neg (fun h' => hne' (hindex h'))]
    exact h b b' hb

theorem congr (hsame : ∀ a ∈ xs, objs1[index a]? = objs[index a]?) :
    Matched index R xs xs' objs1 objs' := by
  intro a a' ha
  have hmem : a ∈ xs := by
    obtain ⟨i, hi, -⟩ := ha
    exact Array.mem_of_getElem? hi
  rw [hsame a hmem]
  exact h a a' ha

theorem eq_of_same (hxs : xs' = xs) (hR : ∀ o o', R o o' → o = o') :
    ∀ a ∈ xs, objs'[index a]? = objs[index a]? := by
  subst hxs
  intro a ha
  obtain ⟨i, hi⟩ := Array.mem_iff_getElem?.mp ha
  obtain ⟨o, o', ho, ho', hoo⟩ := h a a ⟨i, hi, hi⟩
  rw [ho, ho', hR o o' hoo]

theorem set (hal : Aligned xs xs') (hindex : Function.Injective index) (ha : Beside xs xs' a a')
    (hR : R o o') :
    Matched index R xs xs' (objs.setIfInBounds (index a) o)
      (objs'.setIfInBounds (index a') o') := by
  obtain ⟨p, p', hp, hp', -⟩ := h a a' ha
  have hlt := (Array.getElem?_eq_some_iff.mp hp).1
  have hlt' := (Array.getElem?_eq_some_iff.mp hp').1
  refine h.update hal hindex ha (fun k => ?_) (fun k => ?_) hR
  · rw [Array.getElem?_setIfInBounds, if_pos hlt]
  · rw [Array.getElem?_setIfInBounds, if_pos hlt']

theorem modify (hal : Aligned xs xs') (hindex : Function.Injective index)
    (ha : Beside xs xs' a a') {g g' : β → β} (hR : ∀ o o', R o o' → R (g o) (g' o')) :
    Matched index R xs xs' (objs.modify (index a) g) (objs'.modify (index a') g') := by
  obtain ⟨p, p', hp, hp', hpp⟩ := h a a' ha
  have hset : ∀ {os : Array β} {n : Nat} {q : β} {k : β → β} (j : Nat), os[n]? = some q →
      (os.modify n k)[j]? = if n = j then some (k q) else os[j]? := by
    intro os n q k j hq
    rw [Array.getElem?_modify]
    split
    · next hj => rw [← hj, hq]; rfl
    · rfl
  exact h.update hal hindex ha (fun j => hset j hp) (fun j => hset j hp') (hR p p' hpp)

end Matched

end Addresses

/-! ## Twins -/

/-- Two instances of one module without imports. -/
structure Twins where
  inst : Instance
  inst' : Instance
  home : InstanceAddr
  home' : InstanceAddr
  module : inst'.module = inst.module
  limit : inst'.maxCallDepth = inst.maxCallDepth
  imported : inst.importedGlobals = #[]
  imported' : inst'.importedGlobals = #[]
  funcs : Aligned inst.funcs inst'.funcs
  tables : Aligned inst.tables inst'.tables
  memories : Aligned inst.memories inst'.memories
  globals : Aligned inst.definedGlobals inst'.definedGlobals
  elems : Aligned inst.elems inst'.elems
  data : Aligned inst.data inst'.data

namespace Twins

variable (τ : Twins)

/-- The addresses are of one function of the twins. -/
abbrev SameFunc : FuncAddr → FuncAddr → Prop := Beside τ.inst.funcs τ.inst'.funcs

abbrev SameValue : Value → Value → Prop := Value.Alike τ.SameFunc

abbrev SameValues : List Value → List Value → Prop := Forall₂ τ.SameValue

/-- Two functions are one function of the twins. -/
inductive Own : FuncInst → FuncInst → Prop
  | wasm (type : FuncType) (index : Nat) : Own (.wasm type τ.home index) (.wasm type τ.home' index)

/-- One global of the twins, which holds the same. -/
structure SameGlobal (g g' : GlobalInst) : Prop where
  type : g'.type = g.type
  value : τ.SameValue g.value g'.value
  owner : g.owner = some τ.home
  owner' : g'.owner = some τ.home'

/-- The twins are alive and in the same state. -/
structure In (s s' : Store) : Prop where
  here : s.instance? τ.home = some τ.inst
  there : s'.instance? τ.home' = some τ.inst'
  funcs : Matched FuncAddr.index τ.Own τ.inst.funcs τ.inst'.funcs s.funcs s'.funcs
  tables : Matched TableAddr.index (TableInst.Alike τ.SameFunc) τ.inst.tables τ.inst'.tables
    s.tables s'.tables
  memories : Matched MemoryAddr.index Eq τ.inst.memories τ.inst'.memories s.memories s'.memories
  globals : Matched GlobalAddr.index τ.SameGlobal τ.inst.definedGlobals τ.inst'.definedGlobals
    s.globals s'.globals
  elems : Matched ElemAddr.index (fun es es' => EntriesAlike τ.SameFunc es.toList es'.toList)
    τ.inst.elems τ.inst'.elems s.elems s'.elems
  data : Matched DataAddr.index Eq τ.inst.data τ.inst'.data s.data s'.data

variable {τ}

theorem In.funcType? {s s' : Store} (h : τ.In s s') {f f' : FuncAddr} (hf : τ.SameFunc f f') :
    s'.funcType? f' = s.funcType? f := by
  obtain ⟨g, g', hg, hg', hown⟩ := h.funcs f f' hf
  rw [Store.funcType?, Store.funcType?, hg, hg']
  cases hown
  rfl

theorem eq_of_sameFunc (hinst : τ.inst' = τ.inst) (f f' : FuncAddr) (h : τ.SameFunc f f') :
    f = f' := by
  obtain ⟨i, hi, hi'⟩ := h
  rw [hinst] at hi'
  exact Option.some.inj (hi.symm.trans hi')

theorem global? (global : GlobalRef) :
    Option.Rel (Beside τ.inst.definedGlobals τ.inst'.definedGlobals) (τ.inst.global? global)
      (τ.inst'.global? global) := by
  cases global with
  | imported index =>
    show Option.Rel _ τ.inst.importedGlobals[index]? τ.inst'.importedGlobals[index]?
    rw [τ.imported, τ.imported']
    exact .none
  | defined index => exact τ.globals.getElem? index

end Twins

end Wasm
