import Wasm.Proofs.Module.WellFormed

/-! # The grammar of modules

A decoder succeeds exactly on the forms of entries that are judged well. -/

namespace Wasm

open List IndexSpaces

namespace Decode

variable {α β : Type}

/-! ## Lists and sizes -/

/-- A list behind its length. -/
def Vec (G : List UInt8 → α → Prop) (bs : List UInt8) (as : List α) : Prop :=
  ∃ bs1 bs2, bs = bs1 ++ bs2 ∧ Leb128.Unsigned 32 bs1 as.length ∧ Each G as bs2

/-- An item behind the number of its bytes. -/
def Sized (G : List UInt8 → α → Prop) (bs : List UInt8) (a : α) : Prop :=
  ∃ bs1 bs2, bs = bs1 ++ bs2 ∧ Leb128.Unsigned 32 bs1 bs2.length ∧ G bs2 a

namespace Reads

theorem vec {d : Decode α} {G : List UInt8 → α → Prop} (h : Reads d G) :
    Reads (do Decode.many (← Decode.u32) d) (Vec G) := by
  refine (Reads.u32.bind fun n => h.many n).congr fun bs as => ?_
  constructor
  · rintro ⟨bs1, bs2, n, rfl, hn, rfl, he⟩
    exact ⟨bs1, bs2, rfl, hn, he⟩
  · rintro ⟨bs1, bs2, rfl, hn, he⟩
    exact ⟨bs1, bs2, as.length, rfl, hn, rfl, he⟩

theorem vecBind {d : Decode α} {G : List UInt8 → α → Prop} {f : List α → Decode β}
    {H : List α → List UInt8 → β → Prop} (h : Reads d G) (hf : ∀ as, Reads (f as) (H as)) :
    Reads (do
      let as ← Decode.many (← Decode.u32) d
      f as) fun bs b => ∃ bs1 bs2 as, bs = bs1 ++ bs2 ∧ Vec G bs1 as ∧ H as bs2 b := by
  have hassoc : (do
      let as ← Decode.many (← Decode.u32) d
      f as) = (do Decode.many (← Decode.u32) d) >>= f := (bind_assoc _ _ _).symm
  rw [hassoc]
  exact h.vec.bind hf

theorem charge (offset : Nat) (x : Except Fault α) :
    Reads (Decode.charge offset x) fun bs a => bs = [] ∧ x = .ok a := by
  intro c a c'
  rw [charge_eq_ok]
  constructor
  · rintro ⟨hx, rfl⟩
    exact ⟨[], ⟨rfl, hx⟩, .refl _⟩
  · rintro ⟨bs, ⟨rfl, hx⟩, ho⟩
    exact ⟨hx, ho.unique (.refl _)⟩

theorem checked {x : Except Fault α} {f : α → Decode β} {H : α → List UInt8 → β → Prop}
    (offset : Nat) (hf : ∀ a, Reads (f a) (H a)) :
    Reads (Decode.charge offset x >>= f) fun bs b => ∃ a, x = .ok a ∧ H a bs b := by
  refine ((Reads.charge offset x).bind hf).congr fun bs b => ?_
  constructor
  · rintro ⟨_, bs2, a, rfl, ⟨rfl, hx⟩, hh⟩
    exact ⟨a, hx, hh⟩
  · rintro ⟨a, hx, hh⟩
    exact ⟨[], bs, a, rfl, ⟨rfl, hx⟩, hh⟩

theorem refuse {C : Prop} [Decidable C] {f : α → Decode β} {d : Decode β}
    {H : List UInt8 → β → Prop} (fault : Fault) (offset : Nat) (h : Reads d H) :
    Reads (if C then (Decode.fail fault offset : Decode α) >>= f else d)
      fun bs b => ¬ C ∧ H bs b := by
  have hfail : Reads ((Decode.fail fault offset : Decode α) >>= f) fun _ _ => False := by
    intro c b c'
    constructor
    · intro h; cases h
    · rintro ⟨_, h, _⟩; exact h.elim
  refine (hfail.ite h).congr fun bs b => ?_
  constructor
  · rintro (⟨-, h⟩ | h)
    · exact h.elim
    · exact h
  · exact .inr

theorem tag {f : UInt8 → Decode β} {H : UInt8 → List UInt8 → β → Prop}
    (hf : ∀ b, Reads (f b) (H b)) :
    Reads (Decode.byte >>= f) fun bs a => ∃ b bs', bs = b :: bs' ∧ H b bs' a := by
  refine (Reads.byte.bind hf).congr fun bs a => ?_
  constructor
  · rintro ⟨_, bs', b, rfl, rfl, hh⟩
    exact ⟨b, bs', rfl, hh⟩
  · rintro ⟨b, bs', rfl, hh⟩
    exact ⟨[b], bs', b, rfl, rfl, hh⟩

end Reads

end Decode

open Decode (Vec Sized Reads)

/-! ## Names, limits and types -/

/-- The written form of a name: its text in UTF-8. -/
def Name.Form : List UInt8 → String → Prop :=
  Sized fun bs text => bs = text.toUTF8.data.toList

/-- Limits: a flag tells whether there is an upper bound. -/
inductive Limits.Form : List UInt8 → Limits → Prop
  | unbounded {bs min} (h : Leb128.Unsigned 32 bs min) : Form (0 :: bs) ⟨min, none⟩
  | bounded {bs bs' min max} (h : Leb128.Unsigned 32 bs min) (h' : Leb128.Unsigned 32 bs' max)
      (hle : min ≤ max) : Form (1 :: (bs ++ bs')) ⟨min, some max⟩

/-- No bound of limits lies above a number. -/
def Limits.Under (cap : Nat) (limits : Limits) : Prop :=
  limits.min ≤ cap ∧ ∀ max, limits.max = some max → max ≤ cap

def ValueType.Form (bs : List UInt8) (type : ValueType) : Prop := bs = [type.code]

def FuncType.Form (bs : List UInt8) (type : FuncType) : Prop :=
  ∃ bs1 bs2, bs = 0x60 :: (bs1 ++ bs2) ∧ Vec ValueType.Form bs1 type.params ∧
    Vec ValueType.Form bs2 type.results

def TableType.Form (bs : List UInt8) (type : TableType) : Prop :=
  ∃ bs1, bs = type.element.code :: bs1 ∧ type.element.isRef = true ∧ Limits.Form bs1 type.limits

def GlobalType.Form (bs : List UInt8) (type : GlobalType) : Prop :=
  bs = [type.content.code, if type.mutable then 1 else 0]

theorem String.fromUTF8?_eq_some {bytes : ByteArray} {text : String} :
    String.fromUTF8? bytes = some text ↔ bytes = text.toUTF8 := by
  constructor
  · intro h
    unfold String.fromUTF8? at h
    split at h
    · cases h; rfl
    · cases h
  · rintro rfl
    exact dif_pos text.isValidUTF8

namespace Decode.Reads

theorem utf8 (n : Nat) :
    Reads (utf8 n) fun bs text => bs = text.toUTF8.data.toList ∧ bs.length = n := by
  refine Reads.position fun start => ?_
  refine ((Reads.bytes n).bind (H := fun bytes bs text => bs = [] ∧ bytes = text.toUTF8)
    fun bytes => ?_).congr fun bs text => ?_
  · cases ht : String.fromUTF8? bytes with
    | none =>
      refine (Reads.fail _ _).congr fun bs text => ⟨False.elim, ?_⟩
      rintro ⟨-, hb⟩
      rw [String.fromUTF8?_eq_some.mpr hb] at ht
      cases ht
    | some found =>
      refine (Reads.pure found).congr fun bs text => and_congr_right fun _ => ?_
      rw [← String.fromUTF8?_eq_some, ht, Option.some.injEq, eq_comm]
  · constructor
    · rintro ⟨_, _, bytes, rfl, ⟨rfl, hlen⟩, rfl, rfl⟩
      exact ⟨append_nil _, by rwa [append_nil]⟩
    · rintro ⟨rfl, hlen⟩
      exact ⟨_, [], text.toUTF8, (append_nil _).symm, ⟨rfl, hlen⟩, rfl, rfl⟩

theorem name : Reads name Name.Form := by
  refine (Reads.u32.bind Reads.utf8).congr fun bs text => ?_
  constructor
  · rintro ⟨bs1, bs2, n, rfl, hn, ht, rfl⟩
    exact ⟨bs1, bs2, rfl, hn, ht⟩
  · rintro ⟨bs1, bs2, rfl, hn, ht⟩
    exact ⟨bs1, bs2, bs2.length, rfl, hn, ht, rfl⟩

theorem limits : Reads limits Limits.Form := by
  have hmax : ∀ min at_ : Nat, Reads (do
      let max ← Decode.u32
      if min ≤ max then Pure.pure (Limits.mk min (some max))
      else Decode.fail (.limitsMinExceedsMax min max) at_)
      fun bs l => ∃ max, Leb128.Unsigned 32 bs max ∧ min ≤ max ∧ l = ⟨min, some max⟩ := by
    intro min at_
    refine (Reads.u32.bind fun max => (Reads.pure (Limits.mk min (some max))).guard
      (P := min ≤ max) _ _).congr fun bs l => ?_
    constructor
    · rintro ⟨bs1, _, max, rfl, hm, hle, rfl, rfl⟩
      exact ⟨max, by rwa [append_nil], hle, rfl⟩
    · rintro ⟨max, hm, hle, rfl⟩
      exact ⟨bs, [], max, (append_nil _).symm, hm, hle, rfl, rfl⟩
  refine Reads.position fun at_ => ?_
  refine (Reads.tag fun flags => Reads.u32.bind fun min =>
    (Reads.pure (Limits.mk min none)).ite (P := flags = 0)
      ((hmax min at_).guard (P := flags = 1) _ _)).congr fun bs l => ?_
  constructor
  · rintro ⟨flags, _, rfl, bs1, bs2, min, rfl, hmin, ⟨rfl, rfl, rfl⟩ | ⟨-, rfl, max, hm, hle, rfl⟩⟩
    · rw [append_nil]
      exact .unbounded hmin
    · exact .bounded hmin hm hle
  · intro h
    cases h with
    | @unbounded bs min hmin =>
      exact ⟨0, bs, rfl, bs, [], min, (append_nil _).symm, hmin, .inl ⟨rfl, rfl, rfl⟩⟩
    | @bounded bs bs' min max hmin hm hle =>
      exact ⟨1, _, rfl, bs, bs', min, rfl, hmin, .inr ⟨by decide, rfl, max, hm, hle, rfl⟩⟩

theorem funcType : Reads funcType FuncType.Form := by
  have hvec : Reads valueTypes (Vec ValueType.Form) := Reads.valueType.vec
  refine Reads.position fun at_ => ?_
  refine (Reads.tag fun form => Reads.refuse _ _ (hvec.bind fun params => hvec.bind fun results =>
    Reads.pure (FuncType.mk params results))).congr fun bs type => ?_
  constructor
  · rintro ⟨form, _, rfl, hform, bs1, _, params, rfl, hp, bs2, _, results, rfl, hr, rfl, rfl⟩
    rw [Decidable.of_not_not hform, append_nil]
    exact ⟨bs1, bs2, rfl, hp, hr⟩
  · rintro ⟨bs1, bs2, rfl, hp, hr⟩
    exact ⟨0x60, _, rfl, fun h => h rfl, bs1, bs2, type.params, rfl, hp, bs2, [], type.results,
      (append_nil _).symm, hr, rfl, rfl⟩

theorem tableType : Reads tableType fun bs type =>
    TableType.Form bs type ∧ type.limits.min ≤ maxTableEntries := by
  refine (Reads.refType.bind fun element => Reads.position fun at_ =>
    Reads.limits.bind fun limits =>
    Reads.refuse (C := limits.min > maxTableEntries) _ _
      (Reads.pure (TableType.mk element limits))).congr fun bs type => ?_
  constructor
  · rintro ⟨_, _, element, rfl, ⟨href, rfl⟩, bs1, _, limits, rfl, hl, hle, rfl, rfl⟩
    rw [append_nil]
    exact ⟨⟨bs1, rfl, href, hl⟩, Nat.le_of_not_lt hle⟩
  · rintro ⟨⟨bs1, rfl, href, hl⟩, hle⟩
    exact ⟨[type.element.code], bs1, type.element, rfl, ⟨href, rfl⟩, bs1, [], type.limits,
      (append_nil _).symm, hl, Nat.not_lt.mpr hle, rfl, rfl⟩

theorem memoryType (cap : Nat) : Reads (memoryType cap) fun bs limits =>
    Limits.Form bs limits ∧ limits.Under cap := by
  refine Reads.position fun at_ => ?_
  refine (Reads.limits.bind (H := fun limits bs found => bs = [] ∧ found = limits ∧
    limits.Under cap) fun limits => ?_).congr fun bs limits => ?_
  · obtain ⟨min, max⟩ := limits
    cases max with
    | none =>
      refine (Reads.refuse _ _ (Reads.pure _)).congr fun bs found => ?_
      constructor
      · rintro ⟨hle, rfl, rfl⟩
        exact ⟨rfl, rfl, Nat.le_of_not_lt hle, fun _ h => nomatch h⟩
      · rintro ⟨rfl, rfl, hle, -⟩
        exact ⟨Nat.not_lt.mpr hle, rfl, rfl⟩
    | some max =>
      refine (Reads.refuse _ _ (Reads.refuse _ _ (Reads.pure _))).congr fun bs found => ?_
      constructor
      · rintro ⟨hle, hle', rfl, rfl⟩
        refine ⟨rfl, rfl, Nat.le_of_not_lt hle, fun _ h => ?_⟩
        cases h
        exact Nat.le_of_not_lt hle'
      · rintro ⟨rfl, rfl, hle, hle'⟩
        exact ⟨Nat.not_lt.mpr hle, Nat.not_lt.mpr (hle' max rfl), rfl, rfl⟩
  · constructor
    · rintro ⟨bs1, _, found, rfl, hl, rfl, rfl, hu⟩
      exact ⟨by rwa [append_nil], hu⟩
    · rintro ⟨hl, hu⟩
      exact ⟨bs, [], limits, (append_nil _).symm, hl, rfl, rfl, hu⟩

theorem globalType : Reads globalType GlobalType.Form := by
  refine (Reads.valueType.bind fun content => Reads.position fun at_ => Reads.tag fun flag =>
    (Reads.pure (GlobalType.mk content false)).ite (P := flag = 0)
      ((Reads.pure (GlobalType.mk content true)).guard (P := flag = 1) _ _)).congr
    fun bs type => ?_
  constructor
  · rintro ⟨_, _, content, rfl, rfl, flag, _, rfl, ⟨rfl, rfl, rfl⟩ | ⟨-, rfl, rfl, rfl⟩⟩
    · rfl
    · rfl
  · obtain ⟨content, written⟩ := type
    intro h
    cases written with
    | false => exact ⟨[content.code], [0], content, h, rfl, 0, [], rfl, .inl ⟨rfl, rfl, rfl⟩⟩
    | true =>
      exact ⟨[content.code], [1], content, h, rfl, 1, [], rfl, .inr ⟨by decide, rfl, rfl, rfl⟩⟩

end Decode.Reads

/-! ## Constant expressions -/

namespace ConstExpr

/-- What follows the opcode of a constant expression. -/
def OpcodeForm (code : Nat) (bs : List UInt8) (expr : ConstExpr) : Prop :=
  match code with
  | 0x41 => ∃ n, Leb128.Signed 32 bs n ∧ expr = .i32 (BitVec.ofInt 32 n)
  | 0x42 => ∃ n, Leb128.Signed 64 bs n ∧ expr = .i64 (BitVec.ofInt 64 n)
  | 0x43 => ∃ w, (bs.length = 4 ∧ w = BitVec.ofNat 32 (LittleEndian.toNat bs)) ∧ expr = .f32 w
  | 0x44 => ∃ w, (bs.length = 8 ∧ w = BitVec.ofNat 64 (LittleEndian.toNat bs)) ∧ expr = .f64 w
  | 0xD0 => ∃ type, (type.isRef = true ∧ bs = [ValueType.code type]) ∧ expr = .refNull type
  | 0xD2 => ∃ func, Leb128.Unsigned 32 bs func ∧ expr = .refFunc func
  | 0x23 => ∃ index, Leb128.Unsigned 32 bs index ∧ expr = .globalGet index
  | _ => False

/-- The instruction of a constant expression. -/
def InstrForm (bs : List UInt8) (expr : ConstExpr) : Prop :=
  ∃ code imm, bs = code :: imm ∧ OpcodeForm code.toNat imm expr

/-- One instruction and the `end`. -/
def Form (bs : List UInt8) (expr : ConstExpr) : Prop :=
  ∃ bs1, bs = bs1 ++ [0x0B] ∧ InstrForm bs1 expr

/-- It has the type, and reads only constants allowed. -/
structure Admitted (spaces : IndexSpaces) (globals : Bool) (type : ValueType)
    (expr : ConstExpr) : Prop where
  hasType : expr.HasType spaces type
  reads : ∀ index, expr = .globalGet index →
    globals = true ∧ ∃ global, spaces.globals[index]? = some global ∧ global.mutable = false

theorem HasType.admitted {spaces : IndexSpaces} {type : ValueType} {expr : ConstExpr}
    (h : expr.HasType spaces type) (hne : ∀ index, expr ≠ .globalGet index) (globals : Bool) :
    expr.Admitted spaces globals type :=
  ⟨h, fun index heq => absurd heq (hne index)⟩

end ConstExpr

namespace Decode.Reads

open ConstExpr (InstrForm Admitted)

theorem constOf {α : Type} {d : Decode α} {G : List UInt8 → α → Prop} (h : Reads d G)
    {spaces : IndexSpaces} {globals : Bool} {f : α → ConstExpr} {type : α → ValueType}
    (hne : ∀ a index, f a ≠ .globalGet index)
    (ht : ∀ a t, (f a).HasType spaces t ↔ t = type a) :
    Reads (do
      let a ← d
      return (f a, type a)) fun bs found =>
      (∃ a, G bs a ∧ found.1 = f a) ∧ found.1.Admitted spaces globals found.2 := by
  refine (h.map fun a => (f a, type a)).congr fun bs found => ?_
  constructor
  · rintro ⟨a, hg, rfl⟩
    exact ⟨⟨a, hg, rfl⟩, ((ht a _).mpr rfl).admitted (hne a) globals⟩
  · obtain ⟨expr, t⟩ := found
    rintro ⟨⟨a, hg, heq⟩, hadm⟩
    subst heq
    exact ⟨a, hg, by rw [(ht a t).mp hadm.hasType]⟩

variable (spaces : IndexSpaces)
include spaces

theorem constFunc (globals : Bool) (at_ : Nat) : Reads (do
      let func ← Decode.u32
      let _ ← Decode.charge at_ (spaces.funcType func)
      return (ConstExpr.refFunc func, ValueType.funcRef)) fun bs found =>
      (∃ func, Leb128.Unsigned 32 bs func ∧ found.1 = .refFunc func) ∧
        found.1.Admitted spaces globals found.2 := by
  refine (Reads.u32.bind fun func => Reads.checked (x := spaces.funcType func) at_ fun _ =>
    Reads.pure (ConstExpr.refFunc func, ValueType.funcRef)).congr fun bs found => ?_
  constructor
  · rintro ⟨bs1, _, func, rfl, hfunc, type, htype, rfl, rfl⟩
    rw [append_nil]
    exact ⟨⟨func, hfunc, rfl⟩, (ConstExpr.HasType.refFunc htype).admitted nofun globals⟩
  · obtain ⟨expr, t⟩ := found
    rintro ⟨⟨func, hfunc, heq⟩, hadm⟩
    subst heq
    cases hadm.hasType with
    | refFunc htype =>
      exact ⟨bs, [], func, (append_nil _).symm, hfunc, _, htype, rfl, rfl⟩

theorem constGlobal (globals : Bool) (at_ : Nat) : Reads (do
      if !globals then Decode.fail .invalidConstExpr at_
      let index ← Decode.u32
      let global ← Decode.charge at_ (spaces.global index)
      if !spaces.isImportedGlobal index || global.mutable then Decode.fail .invalidConstExpr at_
      return (ConstExpr.globalGet index, global.content)) fun bs found =>
      (∃ index, Leb128.Unsigned 32 bs index ∧ found.1 = .globalGet index) ∧
        found.1.Admitted spaces globals found.2 := by
  refine (Reads.refuse (C := (!globals) = true) _ _ (Reads.u32.bind fun index =>
    Reads.checked (x := spaces.global index) at_ fun global =>
      Reads.refuse (C := (!spaces.isImportedGlobal index || global.mutable) = true) _ _
        (Reads.pure (ConstExpr.globalGet index, global.content)))).congr fun bs found => ?_
  constructor
  · rintro ⟨hglobals, bs1, _, index, rfl, hindex, global, hglobal, hjudged, rfl, rfl⟩
    have hget := lookup_eq_ok.mp hglobal
    rw [Bool.or_eq_true, not_or] at hjudged
    have himported : index < spaces.importedGlobals := by
      simpa [isImportedGlobal] using hjudged.1
    rw [append_nil]
    refine ⟨⟨index, hindex, rfl⟩, .globalGet himported hget, fun index' heq => ?_⟩
    cases heq
    exact ⟨by simpa using hglobals, global, hget, Bool.eq_false_iff.mpr hjudged.2⟩
  · obtain ⟨expr, t⟩ := found
    rintro ⟨⟨index, hindex, heq⟩, hadm⟩
    subst heq
    obtain ⟨hglobals, global, hget, himm⟩ := hadm.reads index rfl
    cases hadm.hasType with
    | globalGet himported hget' =>
      cases Option.some.inj (hget.symm.trans hget')
      refine ⟨by simp [hglobals], bs, [], index, (append_nil _).symm, hindex, global,
        lookup_eq_ok.mpr hget, ?_, rfl, rfl⟩
      simp [isImportedGlobal, himported, himm]

theorem constInstr (globals : Bool) : Reads (constInstr spaces globals) fun bs found =>
      InstrForm bs found.1 ∧ found.1.Admitted spaces globals found.2 := by
  refine Reads.position fun at_ => ?_
  refine (Reads.tag (H := fun code bs found =>
    ConstExpr.OpcodeForm code.toNat bs found.1 ∧ found.1.Admitted spaces globals found.2)
    fun code => ?_).congr fun bs found => ?_
  · generalize code.toNat = n
    unfold ConstExpr.OpcodeForm
    split
    · exact Reads.s32.constOf nofun fun a t => ⟨fun h => by cases h; rfl, fun h => h ▸ .i32 _⟩
    · exact Reads.s64.constOf nofun fun a t => ⟨fun h => by cases h; rfl, fun h => h ▸ .i64 _⟩
    · exact Reads.f32.constOf nofun fun a t => ⟨fun h => by cases h; rfl, fun h => h ▸ .f32 _⟩
    · exact Reads.f64.constOf nofun fun a t => ⟨fun h => by cases h; rfl, fun h => h ▸ .f64 _⟩
    · exact Reads.refType.constOf nofun fun a t =>
        ⟨fun h => by cases h; rfl, fun h => h ▸ .refNull _⟩
    · exact constFunc spaces globals at_
    · exact constGlobal spaces globals at_
    · refine (Reads.fail _ _).congr fun bs found => ⟨False.elim, fun h => ?_⟩
      simp at h
  · constructor
    · rintro ⟨code, bs', rfl, hform, hadm⟩
      exact ⟨⟨code, bs', rfl, hform⟩, hadm⟩
    · rintro ⟨⟨code, bs', rfl, hform⟩, hadm⟩
      exact ⟨code, bs', rfl, hform, hadm⟩

theorem constExpr (expected : ValueType) (globals : Bool) :
    Reads (constExpr spaces expected globals) fun bs expr =>
      expr.Form bs ∧ expr.Admitted spaces globals expected := by
  refine Reads.position fun at_ => ?_
  refine ((Reads.constInstr spaces globals).bind fun found => Reads.tag fun last =>
    Reads.refuse (C := last ≠ 0x0B) _ _ (Reads.refuse (C := found.2 ≠ expected) _ _
      (Reads.pure found.1))).congr fun bs expr => ?_
  constructor
  · rintro ⟨bs1, _, ⟨expr, found⟩, rfl, ⟨hform, hadm⟩, last, _, rfl, hlast, heq, rfl, rfl⟩
    rw [Decidable.of_not_not hlast]
    rw [← Decidable.of_not_not heq]
    exact ⟨⟨bs1, rfl, hform⟩, hadm⟩
  · rintro ⟨⟨bs1, rfl, hform⟩, hadm⟩
    exact ⟨bs1, [0x0B], (expr, expected), rfl, ⟨hform, hadm⟩, 0x0B, [], rfl, fun h => h rfl,
      fun h => h rfl, rfl, rfl⟩

end Decode.Reads

/-! ## Imports and exports -/

/-- The byte that stands for a kind of item. -/
def ItemKind.code : ItemKind → UInt8
  | func => 0
  | table => 1
  | memory => 2
  | global => 3

/-- The written forms of what an import asks for. -/
def ImportDesc.Form (bs : List UInt8) (desc : ImportDesc) : Prop :=
  ∃ bs1, bs = desc.kind.code :: bs1 ∧
    match desc with
    | func typeIndex => Leb128.Unsigned 32 bs1 typeIndex
    | table type => TableType.Form bs1 type
    | memory limits => Limits.Form bs1 limits
    | global type => GlobalType.Form bs1 type

def Import.Form (bs : List UInt8) (i : Import) : Prop :=
  ∃ bs1 bs2 bs3, bs = bs1 ++ (bs2 ++ bs3) ∧ Name.Form bs1 i.module ∧ Name.Form bs2 i.name ∧
    i.desc.Form bs3

/-- Its type exists, and its limits are within bounds. -/
def ImportDesc.Judged (types cap : Nat) : ImportDesc → Prop
  | func typeIndex => typeIndex < types
  | table type => type.limits.min ≤ maxTableEntries
  | memory limits => limits.Under cap
  | global _ => True

def Export.Form (bs : List UInt8) (e : Export) : Prop :=
  ∃ bs1 bs2, bs = bs1 ++ (e.kind.code :: bs2) ∧ Name.Form bs1 e.name ∧
    Leb128.Unsigned 32 bs2 e.index

/-- A global: its type and its initial value. -/
def Global.Form (bs : List UInt8) (g : GlobalType × ConstExpr) : Prop :=
  ∃ bs1 bs2, bs = bs1 ++ bs2 ∧ g.1.Form bs1 ∧ g.2.Form bs2

theorem Decode.Reads.itemKind (fault : UInt8 → Fault) :
    Reads (Decode.itemKind fault) fun bs kind => bs = [kind.code] := by
  refine Reads.position fun at_ => ?_
  refine (Reads.tag (H := fun code bs kind => bs = [] ∧ code = ItemKind.code kind)
    fun code => ?_).congr fun bs kind => ?_
  · have hcode : ∀ {kind : ItemKind} {n : Nat}, code.toNat = n → kind.code.toNat = n →
        Reads (Pure.pure kind) fun bs found => bs = [] ∧ code = ItemKind.code found := by
      intro kind n h hk
      refine (Reads.pure kind).congr fun bs found => and_congr_right fun _ => ?_
      rw [UInt8.toNat_inj.mp (h.trans hk.symm)]
      constructor
      · rintro rfl; rfl
      · cases kind <;> cases found <;> decide
    split
    iterate 4 · next h => exact hcode h rfl
    · next h0 h1 h2 h3 =>
        refine (Reads.fail _ _).congr fun bs kind => ⟨False.elim, ?_⟩
        rintro ⟨-, rfl⟩
        cases kind
        · exact h0 rfl
        · exact h1 rfl
        · exact h2 rfl
        · exact h3 rfl
  · constructor
    · rintro ⟨code, _, rfl, rfl, rfl⟩
      rfl
    · rintro rfl
      exact ⟨kind.code, [], rfl, rfl, rfl⟩

/-! ## Segments -/

namespace ElementSegment

/-- The mode of an element segment, by its flags. -/
def ModeForm (flags : Nat) (bs : List UInt8) (mode : SegmentMode) : Prop :=
  match flags with
  | 0 | 4 => ∃ offset, ConstExpr.Form bs offset ∧ mode = .active 0 offset
  | 2 | 6 => ∃ bs1 bs2 table offset, bs = bs1 ++ bs2 ∧ Leb128.Unsigned 32 bs1 table ∧
      ConstExpr.Form bs2 offset ∧ mode = .active table offset
  | 1 | 5 => bs = [] ∧ mode = .passive
  | 3 | 7 => bs = [] ∧ mode = .declarative
  | _ => False

/-- The type of an element segment, by its flags. -/
def TypeForm (flags : Nat) (bs : List UInt8) (type : ValueType) : Prop :=
  match flags with
  | 0 | 4 => bs = [] ∧ type = .funcRef
  | 1 | 2 | 3 => bs = [0] ∧ type = .funcRef
  | _ => type.isRef = true ∧ bs = [type.code]

/-- A function index or an expression, by the flags. -/
def ItemForm (flags : Nat) (bs : List UInt8) (item : ConstExpr) : Prop :=
  if flags < 4 then ∃ func, Leb128.Unsigned 32 bs func ∧ item = .refFunc func
  else ConstExpr.Form bs item

/-- The eight written forms of an element segment. -/
def Form (bs : List UInt8) (segment : ElementSegment) : Prop :=
  ∃ flags bs0 bs1 bs2 bs3, bs = bs0 ++ (bs1 ++ (bs2 ++ bs3)) ∧ Leb128.Unsigned 32 bs0 flags ∧
    ModeForm flags bs1 segment.mode ∧ TypeForm flags bs2 segment.type ∧
    Vec (ItemForm flags) bs3 segment.items.toList

/-- Its items, and its table if active, are of its type. -/
structure Judged (spaces : IndexSpaces) (segment : ElementSegment) : Prop where
  items : ∀ item ∈ segment.items, item.Admitted spaces false segment.type
  active : ∀ index offset, segment.mode = .active index offset →
    (∃ table, spaces.tables[index]? = some table ∧ table.element = segment.type) ∧
      offset.Admitted spaces false .i32

theorem flags_le {flags : Nat} {bs : List UInt8} {mode : SegmentMode}
    (h : ModeForm flags bs mode) : flags ≤ 7 := by
  unfold ModeForm at h
  split at h <;> first | omega | exact h.elim

theorem eq_funcRef {flags : Nat} {bs : List UInt8} {type : ValueType}
    (h : TypeForm flags bs type) (hlt : flags < 4) : type = .funcRef := by
  match flags, hlt with
  | 0, _ | 1, _ | 2, _ | 3, _ => exact h.2

end ElementSegment

namespace DataSegment

/-- What stands between flags and bytes. -/
def FlagForm (flags : Nat) (bs : List UInt8) (mode : SegmentMode) : Prop :=
  match flags with
  | 0 => ∃ offset, ConstExpr.Form bs offset ∧ mode = .active 0 offset
  | 1 => bs = [] ∧ mode = .passive
  | 2 => ∃ bs1 bs2 memory offset, bs = bs1 ++ bs2 ∧ Leb128.Unsigned 32 bs1 memory ∧
      ConstExpr.Form bs2 offset ∧ mode = .active memory offset
  | _ => False

/-- The written forms of the mode of a data segment. -/
def ModeForm (bs : List UInt8) (mode : SegmentMode) : Prop :=
  ∃ flags bs0 bs1, bs = bs0 ++ bs1 ∧ Leb128.Unsigned 32 bs0 flags ∧ FlagForm flags bs1 mode

/-- The three written forms of a data segment. -/
def Form (bs : List UInt8) (segment : DataSegment) : Prop :=
  ∃ bs1 bs2, bs = bs1 ++ bs2 ∧ ModeForm bs1 segment.mode ∧
    Sized (fun bs bytes => bytes.data.toList = bs) bs2 segment.bytes

/-- If it is active, its memory exists. -/
def Judged (spaces : IndexSpaces) (segment : DataSegment) : Prop :=
  ∀ index offset, segment.mode = .active index offset →
    (∃ limits, spaces.memories[index]? = some limits) ∧ offset.Admitted spaces false .i32

end DataSegment

end Wasm
