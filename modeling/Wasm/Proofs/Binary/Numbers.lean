import Mathlib.Algebra.Ring.Int.Defs
import Mathlib.Algebra.Ring.Nat
import Mathlib.Tactic.Ring
import Wasm.Proofs.Binary.Reading

/-! # Numbers in a binary

The decoders read exactly the written forms (`Decode.leb128_exact`). -/

namespace Wasm

open List

variable {b : UInt8} {bits k : Nat} {P : UInt8 → Prop}

namespace Leb128

/-- All bytes but the last have the high bit set. -/
def IsGroups : List UInt8 → Prop
  | [] => False
  | [b] => b.toNat < 128
  | b :: bs => 128 ≤ b.toNat ∧ IsGroups bs

/-- The number whose base 128 digits the bytes hold. -/
def value : List UInt8 → Nat
  | [] => 0
  | b :: bs => b.toNat % 128 + 128 * value bs

/-- The number of bytes with bit 6 of the last as its sign. -/
def signedValue : List UInt8 → Int
  | [] => 0
  | [b] => if b.toNat < 64 then b.toNat else (b.toNat : Int) - 128
  | b :: bs => (b.toNat % 128 : Nat) + 128 * signedValue bs

/-- The most bytes that a number of `bits` bits takes. -/
def maxGroups (bits : Nat) : Nat := (bits + 6) / 7

/-- The written forms of a natural number of `bits` bits. -/
structure Unsigned (bits : Nat) (bs : List UInt8) (n : Nat) : Prop where
  groups : IsGroups bs
  length_le : bs.length ≤ maxGroups bits
  value_eq : value bs = n
  lt : n < Nat.pow 2 bits

/-- The written forms of an integer of `bits` bits. -/
structure Signed (bits : Nat) (bs : List UInt8) (n : Int) : Prop where
  groups : IsGroups bs
  length_le : bs.length ≤ maxGroups bits
  value_eq : signedValue bs = n
  le : -(Nat.pow 2 (bits - 1) : Int) ≤ n
  lt : n < (Nat.pow 2 (bits - 1) : Int)

variable {bs : List UInt8}

theorem isGroups_iff : IsGroups bs ↔
    (∃ b, bs = [b] ∧ b.toNat < 128) ∨ ∃ b bs', bs = b :: bs' ∧ 128 ≤ b.toNat ∧ IsGroups bs' := by
  match bs with
  | [] => simp [IsGroups]
  | [b] =>
    constructor
    · intro h
      exact .inl ⟨b, rfl, h⟩
    · rintro (⟨_, heq, h⟩ | ⟨_, _, heq, -, h⟩)
      · cases heq; exact h
      · cases heq; exact h.elim
  | b :: b' :: bs =>
    constructor
    · intro h
      exact .inr ⟨b, b' :: bs, rfl, h⟩
    · rintro (⟨_, heq, -⟩ | ⟨_, _, heq, h⟩)
      · cases heq
      · cases heq; exact h

theorem IsGroups.exists_last (h : IsGroups bs) : ∃ b ∈ bs, b.toNat < 128 := by
  induction bs with
  | nil => exact h.elim
  | cons b bs ih =>
    obtain ⟨_, heq, hb⟩ | ⟨_, _, heq, -, h⟩ := isGroups_iff.mp h
    · cases heq; exact ⟨b, mem_cons_self, hb⟩
    · cases heq
      obtain ⟨last, hmem, hlast⟩ := ih h
      exact ⟨last, mem_cons_of_mem _ hmem, hlast⟩

theorem IsGroups.continues {tail : List UInt8} (h : IsGroups (bs ++ tail)) (htail : tail ≠ []) :
    ∀ b ∈ bs, 128 ≤ b.toNat := by
  induction bs with
  | nil => simp
  | cons b bs ih =>
    obtain ⟨_, heq, -⟩ | ⟨_, _, heq, hb, h⟩ := isGroups_iff.mp h
    · exact absurd (append_eq_nil_iff.mp (List.cons.inj heq).2).2 htail
    · obtain ⟨rfl, rfl⟩ := List.cons.inj heq
      simpa using ⟨hb, ih h⟩

theorem value_singleton (hb : b.toNat < 128) : value [b] = b.toNat := by
  show b.toNat % 128 + 128 * 0 = b.toNat
  omega

theorem signedValue_cons (h : IsGroups bs) :
    signedValue (b :: bs) = (b.toNat % 128 : Nat) + 128 * signedValue bs := by
  cases bs with
  | nil => exact h.elim
  | cons b' bs => rfl

theorem signedValue_eq (h : IsGroups bs) : signedValue bs =
    value bs - if 64 ≤ (bs.getLastD 0).toNat then (2 ^ (7 * bs.length) : Int) else 0 := by
  induction bs with
  | nil => exact h.elim
  | cons b bs ih =>
    obtain ⟨_, heq, hb⟩ | ⟨_, _, heq, -, h⟩ := isGroups_iff.mp h
    · cases heq
      rw [value_singleton hb]
      show (if b.toNat < 64 then _ else _) = (b.toNat : Int) - if 64 ≤ b.toNat then 128 else 0
      split <;> split <;> omega
    · cases heq
      have hlast : (b :: bs).getLastD 0 = bs.getLastD 0 := by
        cases bs with
        | nil => exact h.elim
        | cons => rfl
      have hpow : (2 ^ (7 * (b :: bs).length) : Int) = 2 ^ (7 * bs.length) * 128 := Int.pow_add ..
      rw [signedValue_cons h, ih h, value, hlast, hpow]
      split <;> omega

theorem pow_add_seven (n : Nat) : Nat.pow 2 (n + 7) = 128 * Nat.pow 2 n := by
  show Nat.pow 2 n * 2 * 2 * 2 * 2 * 2 * 2 * 2 = _
  omega

theorem maxGroups_add_seven (bits : Nat) : maxGroups (bits + 7) = maxGroups bits + 1 := by
  unfold maxGroups
  omega

theorem singleton_of_length_le (h : IsGroups bs) (hlen : bs.length ≤ maxGroups bits)
    (hbits : bits ≤ 7) : ∃ b, bs = [b] ∧ b.toNat < 128 := by
  obtain h | ⟨b, bs', rfl, -, h⟩ := isGroups_iff.mp h
  · exact h
  · have hpos : 0 < bs'.length := length_pos_iff.mpr fun hnil => by rw [hnil] at h; exact h
    rw [length_cons, maxGroups] at hlen
    omega

theorem unsigned_byte (hbits : 0 < bits) (hb : b.toNat < 128)
    (h : b.toNat < Nat.pow 2 bits) : Unsigned bits [b] b.toNat := by
  refine ⟨hb, ?_, value_singleton hb, h⟩
  show 1 ≤ (bits + 6) / 7
  omega

theorem signed_byte (hbits : 0 < bits) (hb : b.toNat < 128)
    (hle : -(Nat.pow 2 (bits - 1) : Int) ≤ signedValue [b])
    (hlt : signedValue [b] < (Nat.pow 2 (bits - 1) : Int)) : Signed bits [b] (signedValue [b]) := by
  refine ⟨hb, ?_, rfl, hle, hlt⟩
  show 1 ≤ (bits + 6) / 7
  omega

variable {n : Nat}

theorem Unsigned.last_iff (hpos : 0 < bits) (hbits : bits ≤ 7) :
    Unsigned bits bs n ↔ ∃ b, bs = [b] ∧ b.toNat < Nat.pow 2 bits ∧ n = b.toNat := by
  constructor
  · rintro ⟨hg, hlen, rfl, hlt⟩
    obtain ⟨b, rfl, hb⟩ := singleton_of_length_le hg hlen hbits
    rw [value_singleton hb] at hlt
    exact ⟨b, rfl, hlt, value_singleton hb⟩
  · rintro ⟨b, rfl, hlt, rfl⟩
    have hpow : Nat.pow 2 bits ≤ 128 := Nat.pow_le_pow_right (by decide) hbits
    exact unsigned_byte hpos (Nat.lt_of_lt_of_le hlt hpow) hlt

theorem Signed.last_iff {n : Int} (hpos : 0 < bits) (hbits : bits ≤ 7) :
    Signed bits bs n ↔ ∃ b, bs = [b] ∧ (b.toNat < 128 ∧
      -(Nat.pow 2 (bits - 1) : Int) ≤ signedValue [b] ∧
      signedValue [b] < (Nat.pow 2 (bits - 1) : Int)) ∧ n = signedValue [b] := by
  constructor
  · rintro ⟨hg, hlen, rfl, hle, hlt⟩
    obtain ⟨b, rfl, hb⟩ := singleton_of_length_le hg hlen hbits
    exact ⟨b, rfl, ⟨hb, hle, hlt⟩, rfl⟩
  · rintro ⟨b, rfl, ⟨hb, hle, hlt⟩, rfl⟩
    exact signed_byte hpos hb hle hlt

theorem Unsigned.cons_iff : Unsigned (bits + 7) bs n ↔
    (∃ b, bs = [b] ∧ b.toNat < 128 ∧ n = b.toNat) ∨ ∃ b bs' m, bs = b :: bs' ∧
      128 ≤ b.toNat ∧ n = b.toNat - 128 + 128 * m ∧ Unsigned bits bs' m := by
  have hpow := pow_add_seven bits
  have hpos : 0 < Nat.pow 2 bits := Nat.pow_pos (by decide)
  have hmax := maxGroups_add_seven bits
  constructor
  · rintro ⟨hg, hlen, rfl, hlt⟩
    obtain ⟨b, rfl, hb⟩ | ⟨b, bs', rfl, hb, h⟩ := isGroups_iff.mp hg
    · exact .inl ⟨b, rfl, hb, value_singleton hb⟩
    · have hb' := b.toNat_lt
      rw [value, hpow] at hlt
      rw [hmax, length_cons] at hlen
      exact .inr ⟨b, bs', value bs', rfl, hb, by rw [value]; omega, h, by omega, rfl, by omega⟩
  · rintro (⟨b, rfl, hb, rfl⟩ | ⟨b, bs', m, rfl, hb, rfl, hg, hlen, rfl, hlt⟩)
    · exact unsigned_byte (by omega) hb (by omega)
    · have hb' := b.toNat_lt
      refine ⟨isGroups_iff.mpr (.inr ⟨b, bs', rfl, hb, hg⟩), ?_, by rw [value]; omega, by omega⟩
      rw [hmax, length_cons]
      omega

theorem Signed.cons_iff {n : Int} : Signed (bits + 1 + 7) bs n ↔
    (∃ b, bs = [b] ∧ b.toNat < 128 ∧ n = signedValue [b]) ∨ ∃ b bs' m, bs = b :: bs' ∧
      128 ≤ b.toNat ∧ n = (b.toNat : Int) - 128 + 128 * m ∧ Signed (bits + 1) bs' m := by
  have hpow : Nat.pow 2 (bits + 1 + 7 - 1) = 128 * Nat.pow 2 bits := pow_add_seven bits
  have hpos : 0 < Nat.pow 2 bits := Nat.pow_pos (by decide)
  have hmax := maxGroups_add_seven (bits + 1)
  constructor
  · rintro ⟨hg, hlen, rfl, hle, hlt⟩
    obtain ⟨b, rfl, hb⟩ | ⟨b, bs', rfl, hb, h⟩ := isGroups_iff.mp hg
    · exact .inl ⟨b, rfl, hb, rfl⟩
    · have hb' := b.toNat_lt
      rw [signedValue_cons h, hpow] at hle hlt
      rw [hmax, length_cons] at hlen
      refine .inr ⟨b, bs', signedValue bs', rfl, hb, by rw [signedValue_cons h]; omega, h,
        by omega, rfl, ?_, ?_⟩
      · rw [Nat.add_sub_cancel]; omega
      · rw [Nat.add_sub_cancel]; omega
  · rintro (⟨b, rfl, hb, rfl⟩ | ⟨b, bs', m, rfl, hb, rfl, hg, hlen, rfl, hle, hlt⟩)
    · have hrange : -64 ≤ signedValue [b] ∧ signedValue [b] < 64 := by
        unfold signedValue
        split <;> omega
      exact signed_byte (by omega) hb (by rw [hpow]; omega) (by rw [hpow]; omega)
    · have hb' := b.toNat_lt
      rw [Nat.add_sub_cancel] at hle hlt
      refine ⟨isGroups_iff.mpr (.inr ⟨b, bs', rfl, hb, hg⟩), ?_, ?_, by rw [hpow]; omega,
        by rw [hpow]; omega⟩
      · rw [hmax, length_cons]; omega
      · rw [signedValue_cons hg]; omega

/-! ## Canonical forms -/

/-- The canonical written form of a natural number. -/
def encode (n : Nat) : List UInt8 :=
  if n < 128 then [.ofNat n] else .ofNat (128 + n % 128) :: encode (n / 128)

/-- The canonical written form of an integer. -/
def encodeSigned (n : Int) : List UInt8 :=
  if -64 ≤ n ∧ n < 64 then [.ofNat (n % 128).toNat]
  else .ofNat (128 + (n % 128).toNat) :: encodeSigned (n / 128)
termination_by n.natAbs

theorem unsigned_encode (hbits : 0 < bits) (h : n < Nat.pow 2 bits) :
    Unsigned bits (encode n) n := by
  fun_induction encode n generalizing bits with
  | case1 n hn =>
    have hb : (UInt8.ofNat n).toNat = n := UInt8.toNat_ofNat_of_lt (show n < 256 by omega)
    have hform := unsigned_byte (b := UInt8.ofNat n) hbits (by omega) (by omega)
    rwa [hb] at hform
  | case2 n hn ih =>
    -- a number that is not below 128 has more than seven bits
    have hseven : 7 < bits := by
      refine Nat.lt_of_not_le fun hle => ?_
      have : Nat.pow 2 bits ≤ 128 := Nat.pow_le_pow_right (by decide) hle
      omega
    obtain ⟨bits, rfl⟩ : ∃ m, bits = m + 7 := ⟨bits - 7, by omega⟩
    have hpow := pow_add_seven bits
    have hb : (UInt8.ofNat (128 + n % 128)).toNat = 128 + n % 128 :=
      UInt8.toNat_ofNat_of_lt (show 128 + n % 128 < 256 by omega)
    exact Unsigned.cons_iff.mpr (.inr ⟨_, _, n / 128, rfl, by omega, by omega,
      ih (by omega) (by omega)⟩)

theorem signed_encodeSigned {n : Int} (hbits : 0 < bits) (hle : -(Nat.pow 2 (bits - 1) : Int) ≤ n)
    (hlt : n < (Nat.pow 2 (bits - 1) : Int)) : Signed bits (encodeSigned n) n := by
  fun_induction encodeSigned n generalizing bits with
  | case1 n hn =>
    have hb : (UInt8.ofNat (n % 128).toNat).toNat = (n % 128).toNat :=
      UInt8.toNat_ofNat_of_lt (show (n % 128).toNat < 256 by omega)
    have hvalue : signedValue [.ofNat (n % 128).toNat] = n := by
      unfold signedValue
      split <;> omega
    have hform := signed_byte (b := .ofNat (n % 128).toNat) hbits (by omega) (by omega) (by omega)
    rwa [hvalue] at hform
  | case2 n hn ih =>
    -- an integer outside of -64 to 63 has more than seven bits
    have hseven : 7 < bits := by
      refine Nat.lt_of_not_le fun hle => ?_
      have : Nat.pow 2 (bits - 1) ≤ 64 := Nat.pow_le_pow_right (j := 6) (by decide) (by omega)
      omega
    obtain ⟨bits, rfl⟩ : ∃ m, bits = m + 1 + 7 := ⟨bits - 8, by omega⟩
    have hpow : Nat.pow 2 (bits + 1 + 7 - 1) = 128 * Nat.pow 2 bits := pow_add_seven bits
    have hb : (UInt8.ofNat (128 + (n % 128).toNat)).toNat = 128 + (n % 128).toNat :=
      UInt8.toNat_ofNat_of_lt (show 128 + (n % 128).toNat < 256 by omega)
    refine Signed.cons_iff.mpr (.inr ⟨_, _, n / 128, rfl, by omega, by omega, ih (by omega) ?_ ?_⟩)
    · rw [Nat.add_sub_cancel]; omega
    · rw [Nat.add_sub_cancel]; omega

end Leb128

/-! ## What decoders of numbers do -/

theorem Cursor.Over.endError_eq {c c' : Cursor} {bs : List UInt8} (h : c.Over bs c') :
    c'.endError = c.endError := by
  rw [endError, endError, h.base, h.stop]

namespace Decode

def lebFollowing (bits : Nat) : Nat := (bits - 1) / 7

def unsignedGroups : (following bits : Nat) → Decode Nat
  | 0, bits => do
    let at_ ← position
    let group ← byte
    if group.toNat < Nat.pow 2 bits then
      pure group.toNat
    else
      fail .malformedLeb128 at_
  | following + 1, bits => do
    let group ← byte
    if group.toNat < 128 then
      pure group.toNat
    else
      return group.toNat - 128 + 128 * (← unsignedGroups following (bits - 7))

def signedGroupValue (group : Nat) : Int :=
  if group < 64 then group else (group : Int) - 128

def signedGroups : (following bits : Nat) → Decode Int
  | 0, bits => do
    let at_ ← position
    let group ← byte
    let value := signedGroupValue group.toNat
    let limit : Int := Nat.pow 2 (bits - 1)
    if group.toNat < 128 ∧ -limit ≤ value ∧ value < limit then
      pure value
    else
      fail .malformedLeb128 at_
  | following + 1, bits => do
    let group ← byte
    if group.toNat < 128 then
      pure (signedGroupValue group.toNat)
    else
      return (group.toNat : Int) - 128 + 128 * (← signedGroups following (bits - 7))

def unsigned (bits : Nat) : Decode Nat := unsignedGroups (lebFollowing bits) bits

def signed (bits : Nat) : Decode Int := signedGroups (lebFollowing bits) bits

variable {α : Type} {c : Cursor}

theorem byte_of_empty (h : c.left = []) : byte c = .error c.endError c := by
  have hempty : c.pos = c.stop := by simpa [Cursor.isEmpty] using c.isEmpty_iff.mpr h
  rw [byte, dif_neg (Nat.not_lt.mpr (Nat.le_of_eq hempty.symm))]

variable {r : Nat}

theorem byte_of_cons {bs : List UInt8} (h : c.left = b :: bs) :
    ∃ c1, byte c = .ok b c1 ∧ c1.left = bs ∧ c.Over [b] c1 := by
  obtain ⟨c1, ho, hleft⟩ := Cursor.exists_over (show c.left = [b] ++ bs from h)
  exact ⟨c1, (Reads.byte c b c1).mpr ⟨[b], rfl, ho⟩, hleft, ho⟩

/-- A decoder reads numbers in at most `groups` bytes. -/
structure ReadsGroups (groups : Nat) (Form : List UInt8 → α → Prop) (d : Decode α) : Prop where
  reads : Reads d Form
  fails : ∀ {c e c'}, d c = .error e c' →
    (e = c.endError ∧ c.left.length < groups ∧ ∀ b ∈ c.left, 128 ≤ b.toNat) ∨
      (groups ≤ c.left.length ∧
        ∃ offset, e = ⟨.malformedLeb128, offset⟩ ∧ offset + 1 = c.position + groups)

namespace ReadsGroups

variable {Form Form' : List UInt8 → α → Prop} {value : UInt8 → α}

theorem last [DecidablePred P] (hform : ∀ {bs a}, Form bs a ↔ ∃ b, bs = [b] ∧ P b ∧ a = value b) :
    ReadsGroups 1 Form (do
      let at_ ← position
      let b ← byte
      if P b then pure (value b) else fail .malformedLeb128 at_) where
  reads := by
    refine Reads.position fun at_ => ?_
    refine (Reads.byte.bind fun b => (Reads.pure (value b)).guard _ _).congr fun bs a => ?_
    rw [hform]
    constructor
    · rintro ⟨_, _, b, rfl, rfl, hb, rfl, rfl⟩
      exact ⟨b, rfl, hb, rfl⟩
    · rintro ⟨b, rfl, hb, rfl⟩
      exact ⟨[b], [], b, rfl, rfl, hb, rfl, rfl⟩
  fails := by
    intro c e c' h
    rw [bind_of_ok (show position c = .ok c.position c from rfl)] at h
    cases hleft : c.left with
    | nil =>
      rw [bind_of_error (byte_of_empty hleft)] at h
      cases h
      exact .inl ⟨rfl, Nat.one_pos, by simp⟩
    | cons b bs =>
      obtain ⟨c1, hbyte, -, -⟩ := byte_of_cons hleft
      rw [bind_of_ok hbyte] at h
      split at h
      · cases h
      · cases h
        exact .inr ⟨Nat.le_add_left .., c.position, rfl, rfl⟩

variable {groups : Nat}

theorem cons {d : Decode α} {more : UInt8 → α → α} (h : ReadsGroups groups Form d)
    (hform : ∀ {bs a}, Form' bs a ↔ (∃ b, bs = [b] ∧ b.toNat < 128 ∧ a = value b) ∨
      ∃ b bs' m, bs = b :: bs' ∧ 128 ≤ b.toNat ∧ a = more b m ∧ Form bs' m) :
    ReadsGroups (groups + 1) Form' (do
      let b ← byte
      if b.toNat < 128 then pure (value b) else return more b (← d)) where
  reads := by
    refine (Reads.byte.bind fun b => (Reads.pure (value b)).ite
      (h.reads.bind fun m => Reads.pure (more b m))).congr fun bs a => ?_
    rw [hform]
    constructor
    · rintro ⟨_, _, b, rfl, rfl, ⟨hb, rfl, rfl⟩ | ⟨hb, bs1, _, m, rfl, hm, rfl, rfl⟩⟩
      · exact .inl ⟨b, rfl, hb, rfl⟩
      · exact .inr ⟨b, bs1, m, by rw [append_nil]; rfl, Nat.not_lt.mp hb, rfl, hm⟩
    · rintro (⟨b, rfl, hb, rfl⟩ | ⟨b, bs', m, rfl, hb, rfl, hm⟩)
      · exact ⟨[b], [], b, rfl, rfl, .inl ⟨hb, rfl, rfl⟩⟩
      · exact ⟨[b], bs', b, rfl, rfl, .inr ⟨Nat.not_lt.mpr hb, bs', [], m,
          (append_nil _).symm, hm, rfl, rfl⟩⟩
  fails := by
    intro c e c' hfail
    cases hleft : c.left with
    | nil =>
      rw [bind_of_error (byte_of_empty hleft)] at hfail
      cases hfail
      exact .inl ⟨rfl, Nat.succ_pos _, by simp⟩
    | cons b bs =>
      obtain ⟨c1, hbyte, rfl, ho⟩ := byte_of_cons hleft
      rw [bind_of_ok hbyte] at hfail
      split at hfail
      · cases hfail
      · next hb =>
        obtain hfail | ⟨_, _, -, hfail⟩ := bind_eq_error.mp hfail
        · obtain ⟨rfl, hlen, hall⟩ | ⟨hlen, offset, rfl, hoffset⟩ := h.fails hfail
          · exact .inl ⟨ho.endError_eq, Nat.succ_lt_succ hlen, by simpa using ⟨by omega, hall⟩⟩
          · rw [ho.position_eq] at hoffset
            exact .inr ⟨Nat.succ_le_succ hlen, offset, rfl,
              by rw [hoffset]; exact Nat.add_right_comm ..⟩
        · cases hfail

theorem ends_iff {d : Decode α} (h : ReadsGroups groups Form d)
    (hform : ∀ {bs a}, Form bs a → Leb128.IsGroups bs) :
    (∃ c', d c = .error c.endError c') ↔ c.left.length < groups ∧ ∀ b ∈ c.left, 128 ≤ b.toNat := by
  constructor
  · rintro ⟨c', hd⟩
    obtain ⟨-, hends⟩ | ⟨-, offset, he, -⟩ := h.fails hd
    · exact hends
    · cases he
  · rintro ⟨hlen, hall⟩
    cases hd : d c with
    | ok a c' =>
      obtain ⟨bs, hbs, ho⟩ := (h.reads c a c').mp hd
      obtain ⟨b, hmem, hb⟩ := (hform hbs).exists_last
      exact absurd (hall b (ho.left ▸ mem_append_left _ hmem)) (Nat.not_le.mpr hb)
    | error e c' =>
      obtain ⟨rfl, -⟩ | ⟨hle, -⟩ := h.fails hd
      · exact ⟨c', rfl⟩
      · exact absurd hlen (Nat.not_lt.mpr hle)

end ReadsGroups

open Leb128

theorem readsGroups_unsignedGroups (k bits : Nat) (hlo : 7 * k < bits) (hhi : bits ≤ 7 * k + 7) :
    ReadsGroups (k + 1) (Unsigned bits) (unsignedGroups k bits) := by
  induction k generalizing bits with
  | zero => exact .last (Unsigned.last_iff hlo hhi)
  | succ k ih =>
    obtain ⟨bits, rfl⟩ : ∃ m, bits = m + 7 := ⟨bits - 7, by omega⟩
    exact (ih bits (by omega) (by omega)).cons Unsigned.cons_iff

theorem readsGroups_signedGroups (k bits : Nat) (hlo : 7 * k < bits) (hhi : bits ≤ 7 * k + 7) :
    ReadsGroups (k + 1) (Signed bits) (signedGroups k bits) := by
  induction k generalizing bits with
  | zero => exact .last (Signed.last_iff hlo hhi)
  | succ k ih =>
    obtain ⟨bits, rfl⟩ : ∃ m, bits = m + 1 + 7 := ⟨bits - 8, by omega⟩
    exact (ih (bits + 1) (by omega) (by omega)).cons Signed.cons_iff

theorem readsGroups_unsigned (bits : Nat) (h : 0 < bits) :
    ReadsGroups (maxGroups bits) (Unsigned bits) (unsigned bits) := by
  have hgroups : maxGroups bits = lebFollowing bits + 1 := by unfold maxGroups lebFollowing; omega
  rw [hgroups]
  exact readsGroups_unsignedGroups _ _ (by unfold lebFollowing; omega)
    (by unfold lebFollowing; omega)

theorem readsGroups_signed (bits : Nat) (h : 0 < bits) :
    ReadsGroups (maxGroups bits) (Signed bits) (signed bits) := by
  have hgroups : maxGroups bits = lebFollowing bits + 1 := by unfold maxGroups lebFollowing; omega
  rw [hgroups]
  exact readsGroups_signedGroups _ _ (by unfold lebFollowing; omega) (by unfold lebFollowing; omega)

/-! ## The loops

A loop collects in 64 bits what the groups add up to (`unsignedFrom_eq`, `signedFrom_eq`): the
masks tell the bytes apart that the groups allow, no payload meets bits that are already there, and
the sign, or what falls off at the top, changes the sum by a multiple of `2 ^ 64`. -/

theorem forall_byte (h : ∀ n : Fin 256, P (.ofNat n)) (b : UInt8) : P b := by
  have := h ⟨b.toNat, b.toNat_lt⟩
  rwa [UInt8.ofNat_toNat] at this

theorem high_eq_zero : ∀ b : UInt8, b &&& 0x80 = 0 ↔ b.toNat < 128 :=
  forall_byte (by decide +kernel)

theorem sign_ne_zero : ∀ b : UInt8, b &&& 0x40 ≠ 0 ↔ 64 ≤ b.toNat % 128 :=
  forall_byte (by decide +kernel)

theorem toNat_payload : ∀ b : UInt8, (payload b).toNat = b.toNat % 128 :=
  forall_byte (by decide +kernel)

theorem unused_iff (hr : r ≤ 7) (b : UInt8) :
    b &&& 0x80 ≠ 0 ∨ payload b &&& (0x7F#64 <<< r &&& 0x7F#64) ≠ 0 ↔ ¬ b.toNat < Nat.pow 2 r := by
  have htable : ∀ (r : Fin 8) (n : Fin 256), UInt8.ofNat n &&& 0x80 ≠ 0 ∨
      payload (.ofNat n) &&& (0x7F#64 <<< r.val &&& 0x7F#64) ≠ 0 ↔
        ¬ (UInt8.ofNat n).toNat < Nat.pow 2 r := by decide +kernel
  have := htable ⟨r, by omega⟩ ⟨b.toNat, b.toNat_lt⟩
  rwa [UInt8.ofNat_toNat] at this

theorem upper_iff (hpos : 0 < r) (hr : r ≤ 7) (b : UInt8) :
    b &&& 0x80 ≠ 0 ∨ (payload b &&& (0x7F#64 <<< (r - 1) &&& 0x7F#64) ≠ 0 ∧
      payload b &&& (0x7F#64 <<< (r - 1) &&& 0x7F#64) ≠ 0x7F#64 <<< (r - 1) &&& 0x7F#64) ↔
      ¬ (b.toNat < 128 ∧ -(Nat.pow 2 (r - 1) : Int) ≤ signedGroupValue b.toNat ∧
        signedGroupValue b.toNat < (Nat.pow 2 (r - 1) : Int)) := by
  have htable : ∀ (r : Fin 7) (n : Fin 256), UInt8.ofNat n &&& 0x80 ≠ 0 ∨
      (payload (.ofNat n) &&& (0x7F#64 <<< r.val &&& 0x7F#64) ≠ 0 ∧
        payload (.ofNat n) &&& (0x7F#64 <<< r.val &&& 0x7F#64) ≠ 0x7F#64 <<< r.val &&& 0x7F#64) ↔
      ¬ ((UInt8.ofNat n).toNat < 128 ∧
        -(Nat.pow 2 r : Int) ≤ signedGroupValue (UInt8.ofNat n).toNat ∧
        signedGroupValue (UInt8.ofNat n).toNat < (Nat.pow 2 r : Int)) := by decide +kernel
  have := htable ⟨r - 1, by omega⟩ ⟨b.toNat, b.toNat_lt⟩
  rwa [UInt8.ofNat_toNat] at this

theorem or_shiftLeft {x p : BitVec 64} {s : Nat} (h : x.toNat < 2 ^ s) :
    x ||| p <<< s = BitVec.ofNat 64 (x.toNat + p.toNat * 2 ^ s) := by
  apply BitVec.eq_of_toNat_eq
  have hor := Nat.two_pow_add_eq_or_of_lt h p.toNat
  rw [BitVec.toNat_or, BitVec.toNat_shiftLeft, BitVec.toNat_ofNat, Nat.shiftLeft_eq]
  conv => lhs; rw [← Nat.mod_eq_of_lt x.isLt]
  rw [← Nat.or_mod_two_pow, Nat.or_comm, Nat.mul_comm, ← hor, Nat.add_comm]

theorem byte_position {c c1 : Cursor} (h : byte c = .ok b c1) : c1.position - 1 = c.position := by
  unfold byte at h
  split at h
  · cases h
    rfl
  · cases h

theorem byte_bind_eq {α : Type} {f : UInt8 → Decode α} {g : Nat → UInt8 → Decode α}
    (h : ∀ b c, f b c = g (c.position - 1) b c) :
    byte >>= f = position >>= fun at_ => byte >>= g at_ := by
  funext c
  rw [bind_of_ok (show position c = .ok c.position c from rfl)]
  cases hbyte : byte c with
  | ok b c1 => rw [bind_of_ok hbyte, bind_of_ok hbyte, h, byte_position hbyte]
  | error e c1 => rw [bind_of_error hbyte, bind_of_error hbyte]

section Loops

variable {shift : Nat} {result : BitVec 64} (hresult : result.toNat < 2 ^ shift)

include hresult

theorem collect_eq (b : UInt8) : result ||| payload b <<< shift =
    BitVec.ofNat 64 (result.toNat + b.toNat % 128 * 2 ^ shift) := by
  rw [or_shiftLeft hresult, toNat_payload]

theorem toNat_collect (b : UInt8) (hshift : shift + 7 ≤ 64) :
    (result ||| payload b <<< shift).toNat = result.toNat + b.toNat % 128 * 2 ^ shift ∧
      (result ||| payload b <<< shift).toNat < 2 ^ (shift + 7) := by
  have hlt : result.toNat + b.toNat % 128 * 2 ^ shift < 2 ^ (shift + 7) := by
    have hle : b.toNat % 128 * 2 ^ shift ≤ 127 * 2 ^ shift := Nat.mul_le_mul_right _ (by omega)
    rw [Nat.pow_add]
    omega
  have htotal : (result ||| payload b <<< shift).toNat =
    result.toNat + b.toNat % 128 * 2 ^ shift := by
    rw [collect_eq hresult, BitVec.toNat_ofNat]
    exact Nat.mod_eq_of_lt (Nat.lt_of_lt_of_le hlt (Nat.pow_le_pow_right (by decide) hshift))
  exact ⟨htotal, htotal ▸ hlt⟩

theorem unsignedFrom_eq (hbits : bits ≤ 64) (hlo : 7 * k < bits - shift)
    (hhi : bits - shift ≤ 7 * k + 7) :
    unsignedFrom bits shift result = (do
      return BitVec.ofNat 64 (result.toNat + (← unsignedGroups k (bits - shift)) * 2 ^ shift)) := by
  induction k generalizing shift result with
  | zero =>
    rw [unsignedFrom, unsignedGroups]
    simp only [bind_assoc]
    refine byte_bind_eq fun b c => ?_
    rw [dif_pos (by omega)]
    by_cases hb : b.toNat < Nat.pow 2 (bits - shift)
    · have hlt : b.toNat < 128 :=
        Nat.lt_of_lt_of_le hb (Nat.pow_le_pow_right (n := 2) (j := 7) (by decide) hhi)
      rw [if_neg (mt (unused_iff hhi b).mp (not_not_intro hb)), if_pos hb, pure_bind,
        collect_eq hresult, Nat.mod_eq_of_lt hlt]
    · rw [if_pos ((unused_iff hhi b).mpr hb), if_neg hb]
      rfl
  | succ k ih =>
    rw [unsignedFrom, unsignedGroups]
    simp only [bind_assoc]
    refine bind_congr fun b => ?_
    rw [dif_neg (by omega)]
    by_cases hb : b.toNat < 128
    · rw [if_pos ((high_eq_zero b).mpr hb), if_pos hb, pure_bind, collect_eq hresult,
        Nat.mod_eq_of_lt hb]
    · have hb' := b.toNat_lt
      obtain ⟨htotal, hlt⟩ := toNat_collect hresult b (by omega)
      rw [if_neg (mt (high_eq_zero b).mp hb), if_neg hb, ih hlt (by omega) (by omega), htotal,
        Nat.sub_add_eq, show b.toNat % 128 = b.toNat - 128 by omega]
      simp only [bind_assoc, pure_bind]
      refine bind_congr fun n => ?_
      congr 2
      ring

theorem extend_eq (b : UInt8) (hb : b.toNat < 128) : (if shift + 7 < 64 ∧ b &&& 0x40 ≠ 0 then
        result ||| payload b <<< shift ||| (-1#64) <<< (shift + 7)
      else result ||| payload b <<< shift) =
      BitVec.ofInt 64 (result.toNat + signedGroupValue b.toNat * 2 ^ shift) := by
  have hwrap : ∀ a k : ℤ, BitVec.ofInt 64 (a + k * 2 ^ 64) = BitVec.ofInt 64 a := by
    intro a k
    have hzero : BitVec.ofInt 64 (2 ^ 64) = 0#64 := by decide
    rw [BitVec.ofInt_add, BitVec.ofInt_mul, hzero, BitVec.mul_zero, BitVec.add_zero]
  have hmod := Nat.mod_eq_of_lt hb
  have hcast : BitVec.ofNat 64 (result.toNat + b.toNat * 2 ^ shift) =
      BitVec.ofInt 64 (result.toNat + b.toNat * 2 ^ shift) := by
    rw [← BitVec.ofInt_natCast]
    push_cast
    rfl
  have hbit := sign_ne_zero b
  rw [hmod] at hbit
  by_cases hsign : b.toNat < 64
  · rw [if_neg fun h => Nat.not_le.mpr hsign (hbit.mp h.2), collect_eq hresult, hmod, hcast,
      signedGroupValue, if_pos hsign]
  · rw [signedGroupValue, if_neg hsign]
    by_cases hshift : shift + 7 < 64
    · obtain ⟨htotal, hlt⟩ := toNat_collect hresult b (by omega)
      rw [if_pos ⟨hshift, hbit.mpr (Nat.not_lt.mp hsign)⟩, or_shiftLeft hlt, htotal, hmod,
        ← BitVec.ofInt_natCast, show (-1#64).toNat = 2 ^ 64 - 1 from rfl]
      refine Eq.trans ?_ (hwrap _ (2 ^ (shift + 7)))
      congr 1
      push_cast
      ring
    · have hpow : (2 : ℤ) ^ (shift + 7 - 64) * 2 ^ 64 = 2 ^ shift * 128 := by
        rw [← pow_add, Nat.sub_add_cancel (Nat.not_lt.mp hshift), pow_add]
        rfl
      rw [if_neg fun h => hshift h.1, collect_eq hresult, hmod, hcast]
      refine Eq.trans ?_ (hwrap _ (2 ^ (shift + 7 - 64)))
      rw [hpow]
      congr 1
      ring

theorem signedFrom_eq (hbits : bits ≤ 64) (hlo : 7 * k < bits - shift)
    (hhi : bits - shift ≤ 7 * k + 7) :
    signedFrom bits shift result = (do
      return BitVec.ofInt 64 (result.toNat + (← signedGroups k (bits - shift)) * 2 ^ shift)) := by
  induction k generalizing shift result with
  | zero =>
    rw [signedFrom, signedGroups]
    simp only [bind_assoc]
    refine byte_bind_eq fun b c => ?_
    by_cases hb : b.toNat < 128 ∧ -(Nat.pow 2 (bits - shift - 1) : ℤ) ≤ signedGroupValue b.toNat ∧
        signedGroupValue b.toNat < (Nat.pow 2 (bits - shift - 1) : ℤ)
    · rw [dif_neg fun h => (upper_iff hlo hhi b).mp h.2 hb, if_pos hb,
        dif_pos ((high_eq_zero b).mpr hb.1), pure_bind, extend_eq hresult b hb.1]
    · rw [dif_pos ⟨hhi, (upper_iff hlo hhi b).mpr hb⟩, if_neg hb]
      rfl
  | succ k ih =>
    rw [signedFrom, signedGroups]
    simp only [bind_assoc]
    refine bind_congr fun b => ?_
    rw [dif_neg (by omega)]
    by_cases hb : b.toNat < 128
    · rw [dif_pos ((high_eq_zero b).mpr hb), if_pos hb, pure_bind, extend_eq hresult b hb]
    · have hb' := b.toNat_lt
      obtain ⟨htotal, hlt⟩ := toNat_collect hresult b (by omega)
      rw [dif_neg (mt (high_eq_zero b).mp hb), if_neg hb, ih hlt (by omega) (by omega), htotal,
        Nat.sub_add_eq, show b.toNat % 128 = b.toNat - 128 by omega]
      simp only [bind_assoc, pure_bind]
      refine bind_congr fun n => ?_
      rw [Nat.cast_add, Nat.cast_mul, Nat.cast_sub (by omega)]
      congr 2
      push_cast
      ring

end Loops

theorem bind_pure_eq_self {d : Decode α} {f : α → α} (h : ∀ {c a c'}, d c = .ok a c' → f a = a) :
    (d >>= fun a => pure (f a)) = d := by
  funext c
  cases hd : d c with
  | ok a c' =>
    rw [bind_of_ok hd, h hd]
    rfl
  | error e c' => rw [bind_of_error hd]

theorem unsignedFrom_zero {f : BitVec 64 → Nat} (hpos : 0 < bits) (hbits : bits ≤ 64)
    (hf : ∀ n < 2 ^ bits, f (.ofNat 64 n) = n) :
    (do return f (← unsignedFrom bits 0 0)) = unsigned bits := by
  have hloop : unsignedFrom bits 0 0 = (do return BitVec.ofNat 64 (← unsigned bits)) := by
    rw [unsignedFrom_eq (k := lebFollowing bits) (by decide) hbits (by unfold lebFollowing; omega)
      (by unfold lebFollowing; omega)]
    simp only [Nat.pow_zero, Nat.mul_one, BitVec.ofNat_eq_ofNat, BitVec.toNat_zero, Nat.zero_add,
      Nat.sub_zero]
    rfl
  rw [hloop, bind_assoc]
  simp only [pure_bind]
  refine bind_pure_eq_self fun {c a c'} h => ?_
  obtain ⟨bs, hform, -⟩ := ((readsGroups_unsigned bits hpos).reads c a c').mp h
  exact hf a hform.lt

theorem signedFrom_zero {f : BitVec 64 → Int} (hpos : 0 < bits) (hbits : bits ≤ 64)
    (hf : ∀ n : Int, -(2 ^ (bits - 1) : Nat) ≤ n → n < (2 ^ (bits - 1) : Nat) →
      f (.ofInt 64 n) = n) :
    (do return f (← signedFrom bits 0 0)) = signed bits := by
  have hloop : signedFrom bits 0 0 = (do return BitVec.ofInt 64 (← signed bits)) := by
    rw [signedFrom_eq (k := lebFollowing bits) (by decide) hbits (by unfold lebFollowing; omega)
      (by unfold lebFollowing; omega)]
    simp only [pow_zero, mul_one, BitVec.ofNat_eq_ofNat, BitVec.toNat_zero, Nat.cast_zero, zero_add,
      Nat.sub_zero]
    rfl
  rw [hloop, bind_assoc]
  simp only [pure_bind]
  refine bind_pure_eq_self fun {c a c'} h => ?_
  obtain ⟨bs, hform, -⟩ := ((readsGroups_signed bits hpos).reads c a c').mp h
  exact hf a hform.le hform.lt

theorem u32_eq : u32 = unsigned 32 :=
  unsignedFrom_zero (by decide) (by decide) fun n hn => by
    rw [BitVec.toNat_setWidth, BitVec.toNat_ofNat]
    omega

theorem u64_eq : u64 = unsigned 64 :=
  unsignedFrom_zero (by decide) (by decide) fun n hn => by
    rw [BitVec.toNat_ofNat]
    omega

theorem s32_eq : s32 = signed 32 :=
  signedFrom_zero (by decide) (by decide) fun n hle hlt => by
    have hlow : (BitVec.ofInt 64 n).setWidth 32 = BitVec.ofInt 32 n := by
      apply BitVec.eq_of_toNat_eq
      rw [BitVec.toNat_setWidth, BitVec.toNat_ofInt, BitVec.toNat_ofInt]
      omega
    rw [hlow, BitVec.toInt_ofInt_eq_self (by decide) (by omega) (by omega)]

theorem s33_eq : s33 = signed 33 :=
  signedFrom_zero (by decide) (by decide) fun n hle hlt => by
    rw [BitVec.toInt_ofInt_eq_self (by decide) (by omega) (by omega)]

theorem s64_eq : s64 = signed 64 :=
  signedFrom_zero (by decide) (by decide) fun n hle hlt => by
    rw [BitVec.toInt_ofInt_eq_self (by decide) (by omega) (by omega)]

theorem Reads.u32 : Reads u32 (Unsigned 32) := by
  rw [u32_eq]
  exact (readsGroups_unsigned 32 (by decide)).reads

theorem Reads.u64 : Reads u64 (Unsigned 64) := by
  rw [u64_eq]
  exact (readsGroups_unsigned 64 (by decide)).reads

theorem Reads.s32 : Reads s32 (Signed 32) := by
  rw [s32_eq]
  exact (readsGroups_signed 32 (by decide)).reads

theorem Reads.s33 : Reads s33 (Signed 33) := by
  rw [s33_eq]
  exact (readsGroups_signed 33 (by decide)).reads

theorem Reads.s64 : Reads s64 (Signed 64) := by
  rw [s64_eq]
  exact (readsGroups_signed 64 (by decide)).reads

/-- A written form is read to its end and nothing else is; what ends too early is told from what is
    malformed, and a canonical form is read back. -/
structure Exact (bits : Nat) (InRange : α → Prop) (Form : List UInt8 → α → Prop)
    (encode : α → List UInt8) (d : Decode α) : Prop where
  reads : ∀ c a c', d c = .ok a c' ↔ ∃ bs, Form bs a ∧ c.Over bs c'
  ends_iff : ∀ c, (∃ offset c', d c = .error ⟨.unexpectedEnd, offset⟩ c') ↔
    c.left.length < maxGroups bits ∧ ∀ b ∈ c.left, 128 ≤ b.toNat
  malformed : ∀ c e c', d c = .error e c' → e.fault ≠ .unexpectedEnd →
    e.fault = .malformedLeb128 ∧ e.offset + 1 = c.position + maxGroups bits
  reads_encode : ∀ c a rest, InRange a → c.left = encode a ++ rest →
    ∃ c', d c = .ok a c' ∧ c.Over (encode a) c' ∧ c'.left = rest

theorem ReadsGroups.exact {InRange : α → Prop} {Form : List UInt8 → α → Prop}
    {encode : α → List UInt8} {d : Decode α} (h : ReadsGroups (maxGroups bits) Form d)
    (hform : ∀ {bs a}, Form bs a → IsGroups bs) (hencode : ∀ {a}, InRange a → Form (encode a) a) :
    Exact bits InRange Form encode d where
  reads := h.reads
  ends_iff c := by
    rw [← h.ends_iff hform]
    constructor
    · rintro ⟨offset, c', hd⟩
      obtain ⟨he, -⟩ | ⟨-, _, he, -⟩ := h.fails hd
      · exact ⟨c', he ▸ hd⟩
      · cases he
    · rintro ⟨c', hd⟩
      exact ⟨_, c', hd⟩
  malformed c e c' hd hne := by
    obtain ⟨rfl, -⟩ | ⟨-, offset, rfl, hoffset⟩ := h.fails hd
    · exact absurd rfl hne
    · exact ⟨rfl, hoffset⟩
  reads_encode c a rest ha hleft := by
    obtain ⟨c', ho, hrest⟩ := Cursor.exists_over hleft
    exact ⟨c', (h.reads c a c').mpr ⟨_, hencode ha, ho⟩, ho, hrest⟩

theorem exact_unsigned (bits : Nat) (h : 0 < bits) :
    Exact bits (fun n => n < 2 ^ bits) (Unsigned bits) encode (unsigned bits) :=
  (readsGroups_unsigned bits h).exact Unsigned.groups (unsigned_encode h)

theorem exact_signed (bits : Nat) (h : 0 < bits) :
    Exact bits (fun n : Int => -(2 ^ (bits - 1) : Nat) ≤ n ∧ n < (2 ^ (bits - 1) : Nat))
      (Signed bits)
      encodeSigned (signed bits) :=
  (readsGroups_signed bits h).exact Signed.groups fun hn => signed_encodeSigned h hn.1 hn.2

/-- **Decoding of LEB128 integers is exact** for each of the widths in use. -/
theorem leb128_exact : Exact 32 (fun n => n < 2 ^ 32) (Unsigned 32) encode u32 ∧
      Exact 64 (fun n => n < 2 ^ 64) (Unsigned 64) encode u64 ∧
      Exact 32 (fun n => -2 ^ 31 ≤ n ∧ n < 2 ^ 31) (Signed 32) encodeSigned s32 ∧
      Exact 33 (fun n => -2 ^ 32 ≤ n ∧ n < 2 ^ 32) (Signed 33) encodeSigned s33 ∧
      Exact 64 (fun n => -2 ^ 63 ≤ n ∧ n < 2 ^ 63) (Signed 64) encodeSigned s64 ∧
      ∀ bs, IsGroups bs → signedValue bs =
        value bs - if 64 ≤ (bs.getLastD 0).toNat then (2 ^ (7 * bs.length) : Int) else 0 := by
  rw [u32_eq, u64_eq, s32_eq, s33_eq, s64_eq]
  exact ⟨exact_unsigned 32 (by decide), exact_unsigned 64 (by decide), exact_signed 32 (by decide),
    exact_signed 33 (by decide), exact_signed 64 (by decide), fun _ => signedValue_eq⟩

theorem Reads.floatBits (width size : Nat) :
    Reads (do return BitVec.ofNat width (LittleEndian.toNat (← Decode.bytes size).toList))
      fun bs w => bs.length = size ∧ w = BitVec.ofNat width (LittleEndian.toNat bs) := by
  refine ((Reads.bytes size).bind fun a => Reads.pure _).congr fun bs w => ?_
  constructor
  · rintro ⟨_, _, a, rfl, ⟨rfl, hlen⟩, rfl, rfl⟩
    rw [append_nil, toList_eq_data]
    exact ⟨hlen, rfl⟩
  · rintro ⟨hlen, rfl⟩
    refine ⟨bs, [], ⟨bs.toArray⟩, (append_nil _).symm, ⟨rfl, hlen⟩, rfl, ?_⟩
    rw [toList_eq_data]

theorem Reads.f32 :
    Reads f32 fun bs w => bs.length = 4 ∧ w = BitVec.ofNat 32 (LittleEndian.toNat bs) :=
  Reads.floatBits 32 4

theorem Reads.f64 :
    Reads f64 fun bs w => bs.length = 8 ∧ w = BitVec.ofNat 64 (LittleEndian.toNat bs) :=
  Reads.floatBits 64 8

end Decode

end Wasm
