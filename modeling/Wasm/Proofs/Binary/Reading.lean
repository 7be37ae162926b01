import Wasm.Binary.Primitive
import Wasm.Proofs.Sequencing

/-! # Decoders and the bytes they read

`Decode.Reads d G`: `d` succeeds on exactly the bytes of `G`, whatever follows. -/

namespace Wasm

open List

theorem toList_eq_data (bytes : ByteArray) : bytes.toList = bytes.data.toList := by
  have hloop : ∀ n i collected, bytes.size - i = n →
      ByteArray.toList.loop bytes i collected = collected.reverse ++ bytes.data.toList.drop i := by
    intro n
    induction n with
    | zero =>
      intro i collected hn
      rw [ByteArray.toList.loop, if_neg (by omega), drop_of_length_le, append_nil]
      rw [Array.length_toList, ByteArray.size_data]
      omega
    | succ n ih =>
      intro i collected hn
      have hi : i < bytes.size := by omega
      have hget : bytes.get! i = bytes.data[i] := getElem!_pos bytes.data i hi
      rw [ByteArray.toList.loop, if_pos hi, ih (i + 1) _ (by omega), hget, reverse_cons,
        append_assoc, singleton_append, ← Array.getElem_toList,
        getElem_cons_drop]
  exact hloop _ 0 [] rfl

namespace Cursor

/-- The bytes of the range that are left. -/
def left (c : Cursor) : List UInt8 := (c.bytes.data.toList.take c.stop).drop c.pos

theorem length_left (c : Cursor) : c.left.length = c.remaining := by
  have := c.stop_le
  rw [left, remaining, length_drop, length_take, Array.length_toList, ByteArray.size_data]
  omega

theorem isEmpty_iff (c : Cursor) : c.isEmpty = true ↔ c.left = [] := by
  have := c.pos_le
  rw [isEmpty, beq_iff_eq, ← length_eq_zero_iff, length_left, remaining]
  omega

theorem left_ofBytes (bytes : ByteArray) (base : Nat) :
    (ofBytes bytes base).left = bytes.data.toList := by
  have hlen : bytes.data.toList.length = bytes.size :=
    Array.length_toList.trans ByteArray.size_data
  rw [left, ofBytes, drop_zero, take_of_length_le (Nat.le_of_eq hlen)]

/-- A cursor has moved over some bytes. -/
structure Over (c : Cursor) (bs : List UInt8) (c' : Cursor) : Prop where
  left : c.left = bs ++ c'.left
  bytes : c'.bytes = c.bytes
  base : c'.base = c.base
  stop : c'.stop = c.stop

namespace Over

variable {c c' c'' : Cursor} {bs bs' : List UInt8}

theorem refl (c : Cursor) : c.Over [] c := ⟨rfl, rfl, rfl, rfl⟩

variable (h : c.Over bs c')
include h

theorem trans (h' : c'.Over bs' c'') : c.Over (bs ++ bs') c'' where
  left := by rw [h.left, h'.left, append_assoc]
  bytes := h'.bytes.trans h.bytes
  base := h'.base.trans h.base
  stop := h'.stop.trans h.stop

theorem pos_eq : c'.pos = c.pos + bs.length := by
  have hl := congrArg List.length h.left
  have := c.pos_le
  have := c'.pos_le
  rw [length_append, length_left, length_left, remaining, remaining, h.stop] at hl
  have := h.stop
  omega

theorem position_eq : c'.position = c.position + bs.length := by
  rw [position, position, h.base, h.pos_eq, Nat.add_assoc]

theorem remaining_eq : c.remaining = bs.length + c'.remaining := by
  rw [← c.length_left, h.left, length_append, c'.length_left]

theorem unique (h' : c.Over bs c'') : c' = c'' := by
  obtain ⟨bytes, base, pos, stop, _, _⟩ := c'
  obtain ⟨bytes', base', pos', stop', _, _⟩ := c''
  obtain rfl : bytes' = bytes := h'.bytes.trans h.bytes.symm
  obtain rfl : base' = base := h'.base.trans h.base.symm
  obtain rfl : stop' = stop := h'.stop.trans h.stop.symm
  obtain rfl : pos' = pos := h'.pos_eq.trans h.pos_eq.symm
  rfl

end Over

theorem over_advance (c : Cursor) {n : Nat} (h : n ≤ c.remaining) :
    c.Over (c.left.take n) (c.advance n h) where
  left := by
    have hd : (c.advance n h).left = c.left.drop n := by
      rw [left, left, advance, drop_drop]
    rw [hd, take_append_drop]
  bytes := rfl
  base := rfl
  stop := rfl

theorem exists_over_left (c : Cursor) : ∃ c', c.Over c.left c' := by
  have ho := c.over_advance (Nat.le_of_eq c.length_left)
  rw [take_length] at ho
  exact ⟨_, ho⟩

theorem Over.split {c c' : Cursor} {bs bs' : List UInt8} (h : c.Over (bs ++ bs') c') :
    ∃ c1, c.Over bs c1 ∧ c1.Over bs' c' := by
  have hlen : bs.length ≤ c.remaining := by
    rw [← length_left, h.left, length_append, length_append]
    omega
  have hbs : c.left.take bs.length = bs := by
    rw [h.left, append_assoc, take_left]
  have ho := c.over_advance hlen
  rw [hbs] at ho
  refine ⟨c.advance bs.length hlen, ho, ?_, h.bytes, h.base, h.stop⟩
  have hl := h.left
  rw [ho.left, append_assoc] at hl
  exact append_cancel_left hl

theorem exists_over {c : Cursor} {bs rest : List UInt8} (h : c.left = bs ++ rest) :
    ∃ c', c.Over bs c' ∧ c'.left = rest := by
  obtain ⟨c', hall⟩ := c.exists_over_left
  rw [h] at hall
  obtain ⟨c1, ho, -⟩ := hall.split
  exact ⟨c1, ho, append_cancel_left (ho.left.symm.trans h)⟩

end Cursor

namespace Decode

variable {α β σ : Type}

def Reads (d : Decode α) (G : List UInt8 → α → Prop) : Prop :=
  ∀ c a c', d c = .ok a c' ↔ ∃ bs, G bs a ∧ c.Over bs c'

namespace Reads

variable {d : Decode α} {f : α → Decode β} {G G' : List UInt8 → α → Prop}

theorem congr (h : Reads d G) (hG : ∀ bs a, G bs a ↔ G' bs a) : Reads d G' := by
  intro c a c'
  rw [h c a c']
  exact ⟨fun ⟨bs, hg, ho⟩ => ⟨bs, (hG bs a).mp hg, ho⟩,
    fun ⟨bs, hg, ho⟩ => ⟨bs, (hG bs a).mpr hg, ho⟩⟩

theorem pure (a : α) : Reads (Pure.pure a) fun bs b => bs = [] ∧ b = a := by
  intro c b c'
  constructor
  · intro h; cases h; exact ⟨[], ⟨rfl, rfl⟩, .refl c⟩
  · rintro ⟨bs, ⟨rfl, rfl⟩, ho⟩
    rw [ho.unique (.refl c)]
    rfl

theorem fail (fault : Fault) (offset : Nat) :
    Reads (fail fault offset : Decode α) fun _ _ => False := by
  intro c b c'
  constructor
  · intro h; cases h
  · rintro ⟨_, h, _⟩; exact h.elim

theorem bind {H : α → List UInt8 → β → Prop} (hd : Reads d G) (hf : ∀ a, Reads (f a) (H a)) :
    Reads (d >>= f) fun bs b => ∃ bs1 bs2 a, bs = bs1 ++ bs2 ∧ G bs1 a ∧ H a bs2 b := by
  intro c b c'
  rw [bind_eq_ok]
  constructor
  · rintro ⟨a, c1, h, h'⟩
    obtain ⟨bs1, hg, ho⟩ := (hd c a c1).mp h
    obtain ⟨bs2, hh, ho'⟩ := (hf a c1 b c').mp h'
    exact ⟨_, ⟨bs1, bs2, a, rfl, hg, hh⟩, ho.trans ho'⟩
  · rintro ⟨_, ⟨bs1, bs2, a, rfl, hg, hh⟩, ho⟩
    obtain ⟨c1, ho1, ho2⟩ := ho.split
    exact ⟨a, c1, (hd c a c1).mpr ⟨bs1, hg, ho1⟩, (hf a c1 b c').mpr ⟨bs2, hh, ho2⟩⟩

theorem ite {P : Prop} [Decidable P] {d' : Decode α} (h : Reads d G) (h' : Reads d' G') :
    Reads (if P then d else d') fun bs a => (P ∧ G bs a) ∨ (¬ P ∧ G' bs a) := by
  by_cases hp : P
  · rw [if_pos hp]
    exact h.congr fun bs a => ⟨fun hg => .inl ⟨hp, hg⟩,
      fun hg => hg.elim (·.2) fun hn => absurd hp hn.1⟩
  · rw [if_neg hp]
    exact h'.congr fun bs a => ⟨fun hg => .inr ⟨hp, hg⟩,
      fun hg => hg.elim (fun hn => absurd hn.1 hp) (·.2)⟩

theorem guard {P : Prop} [Decidable P] (h : Reads d G) (fault : Fault) (offset : Nat) :
    Reads (if P then d else Decode.fail fault offset) fun bs a => P ∧ G bs a :=
  (h.ite (Reads.fail fault offset)).congr fun _ _ =>
    ⟨fun hg => hg.elim id fun hn => hn.2.elim, .inl⟩

theorem position {f : Nat → Decode β} {H : List UInt8 → β → Prop} (hf : ∀ p, Reads (f p) H) :
    Reads (Decode.position >>= f) H := by
  intro c b c'
  exact hf _ c b c'

theorem byte : Reads byte fun bs b => bs = [b] := by
  intro c b c'
  unfold Decode.byte
  by_cases h : c.pos < c.stop
  · have hsize : c.pos < c.bytes.size := Nat.lt_of_lt_of_le h c.stop_le
    have hleft : c.left = c.bytes[c.pos] :: c.left.drop 1 := by
      have hlt : c.pos < (c.bytes.data.toList.take c.stop).length := by
        rw [← Nat.sub_pos_iff_lt, ← length_drop]
        show 0 < c.left.length
        rw [Cursor.length_left, Cursor.remaining]
        omega
      rw [Cursor.left, drop_drop, drop_eq_getElem_cons hlt, getElem_take]
      rfl
    have hone : 1 ≤ c.remaining := by rw [Cursor.remaining]; omega
    have ho := c.over_advance hone
    rw [hleft, take_succ_cons, take_zero] at ho
    rw [dif_pos h]
    constructor
    · intro heq; cases heq; exact ⟨[c.bytes[c.pos]], rfl, ho⟩
    · rintro ⟨bs, rfl, ho'⟩
      have hb : c.bytes[c.pos] = b := by
        have hl := ho'.left
        rw [hleft] at hl
        exact (List.cons.inj hl).1
      subst hb
      rw [← ho.unique ho']
      rfl
  · rw [dif_neg h]
    constructor
    · intro heq; cases heq
    · rintro ⟨bs, rfl, ho⟩
      have hp := ho.pos_eq
      have hle := c'.pos_le
      rw [ho.stop, hp, length_singleton] at hle
      omega

theorem bytes (n : Nat) : Reads (bytes n) fun bs a => a.data.toList = bs ∧ bs.length = n := by
  intro c a c'
  unfold Decode.bytes
  by_cases h : n ≤ c.remaining
  · have ho := c.over_advance h
    have hdata : (c.bytes.extract c.pos (c.pos + n)).data.toList = c.left.take n := by
      have := c.pos_add_le h
      rw [ByteArray.data_extract, Array.toList_extract, Cursor.left, extract_eq_take_drop,
        drop_take, take_take, Nat.add_sub_cancel_left]
      congr 1
      omega
    have hlen : (c.left.take n).length = n := by
      rw [length_take, Cursor.length_left]
      omega
    rw [dif_pos h]
    constructor
    · intro heq; cases heq; exact ⟨_, ⟨hdata, hlen⟩, ho⟩
    · rintro ⟨bs, ⟨rfl, hn⟩, ho'⟩
      have ha : a = c.bytes.extract c.pos (c.pos + n) := by
        refine ByteArray.ext (Array.toList_inj.mp ?_)
        rw [hdata, ho'.left, take_left' hn]
      subst ha
      rw [hdata] at ho'
      rw [ho.unique ho']
  · rw [dif_neg h]
    constructor
    · intro heq; cases heq
    · rintro ⟨bs, ⟨-, hn⟩, ho⟩
      have hl := congrArg List.length ho.left
      rw [Cursor.length_left, length_append] at hl
      omega

end Reads

/-! ## Repetition -/

theorem Reads.append_inj {d : Decode α} {G : List UInt8 → α → Prop} (h : Reads d G)
    {bs bs' rest rest' : List UInt8} {a a' : α} (ha : G bs a) (ha' : G bs' a')
    (heq : bs ++ rest = bs' ++ rest') : a = a' ∧ rest = rest' := by
  obtain ⟨c, hc⟩ : ∃ c : Cursor, c.left = bs ++ rest :=
    ⟨.ofBytes ⟨(bs ++ rest).toArray⟩ 0, Cursor.left_ofBytes _ _⟩
  obtain ⟨c', hover⟩ := c.exists_over_left
  have hover' := hover
  rw [hc] at hover
  rw [hc, heq] at hover'
  obtain ⟨c1, ho, hrest⟩ := hover.split
  obtain ⟨c2, ho', hrest'⟩ := hover'.split
  have hd := ((h c a c1).mpr ⟨bs, ha, ho⟩).symm.trans ((h c a' c2).mpr ⟨bs', ha', ho'⟩)
  obtain ⟨rfl, rfl⟩ := EStateM.Result.ok.inj hd
  have hleft := hrest.left.symm.trans hrest'.left
  exact ⟨rfl, append_cancel_right hleft⟩

/-- Values are read one after the other. -/
inductive Each (G : List UInt8 → α → Prop) : List α → List UInt8 → Prop
  | nil : Each G [] []
  | cons {a as bs bs'} (h : G bs a) (hs : Each G as bs') : Each G (a :: as) (bs ++ bs')

def InTurn (J : List α → α → Prop) (as : List α) : Prop :=
  ∀ before a, before ++ [a] <+: as → J before a

theorem inTurn_nil {J : List α → α → Prop} : InTurn J [] := fun _ _ h =>
  absurd (prefix_nil.mp h) (append_ne_nil_of_right_ne_nil _ (cons_ne_nil _ _))

theorem inTurn_cons {J : List α → α → Prop} {a : α} {as : List α} :
    InTurn J (a :: as) ↔ J [] a ∧ InTurn (fun before => J (a :: before)) as := by
  constructor
  · intro h
    refine ⟨h [] a (prefix_append [a] as), fun before b hb => h (a :: before) b ?_⟩
    exact cons_prefix_cons.mpr ⟨rfl, hb⟩
  · rintro ⟨h0, h⟩ before b hb
    cases before with
    | nil =>
      obtain ⟨rfl, -⟩ := cons_prefix_cons.mp hb
      exact h0
    | cons a' before =>
      obtain ⟨rfl, hb'⟩ := cons_prefix_cons.mp hb
      exact h before b hb'

theorem Each.inj {d : Decode α} {G : List UInt8 → α → Prop} (h : Reads d G)
    (hne : ∀ bs a, G bs a → bs ≠ []) {as as' : List α} {bs : List UInt8} (he : Each G as bs)
    (he' : Each G as' bs) : as = as' := by
  induction he generalizing as' with
  | nil =>
    cases as' with
    | nil => rfl
    | cons a' as' =>
      generalize hbs : ([] : List UInt8) = bs at he'
      cases he' with
      | cons ha' _ => exact absurd (append_eq_nil_iff.mp hbs.symm).1 (hne _ _ ha')
  | @cons a as bs bs' ha _ ih =>
    generalize hbs : bs ++ bs' = bs1 at he'
    cases he' with
    | nil => exact absurd (append_eq_nil_iff.mp hbs).1 (hne _ _ ha)
    | cons ha' hs' =>
      obtain ⟨rfl, rfl⟩ := h.append_inj ha ha' hbs
      rw [ih hs']

namespace Reads

theorem entries {step : σ → Decode σ} {G : List UInt8 → α → Prop} {J : List α → α → Prop}
    {D : List α → σ}
    (h : ∀ as, Reads (step (D as)) fun bs s => ∃ a, G bs a ∧ J as a ∧ s = D (as ++ [a])) (n : Nat) :
    Reads (fold step n (D [])) fun bs s =>
      ∃ as, as.length = n ∧ Each G as bs ∧ InTurn J as ∧ s = D as := by
  have hfold : ∀ old, Reads (fold step n (D old)) fun bs s => ∃ as, as.length = n ∧
      Each G as bs ∧ InTurn (fun before => J (old ++ before)) as ∧ s = D (old ++ as) := by
    induction n with
    | zero =>
      intro old
      refine (Reads.pure _).congr fun bs s => ?_
      constructor
      · rintro ⟨rfl, rfl⟩
        exact ⟨[], rfl, .nil, inTurn_nil, by rw [append_nil]⟩
      · rintro ⟨as, hlen, he, -, rfl⟩
        cases he with
        | nil => exact ⟨rfl, by rw [append_nil]⟩
        | cons => cases hlen
    | succ n ih =>
      intro old c s c'
      rw [fold, bind_eq_ok]
      constructor
      · rintro ⟨s1, c1, hread, hrest⟩
        obtain ⟨bs1, ⟨a, hg, hj, rfl⟩, ho1⟩ := (h old _ _ _).mp hread
        obtain ⟨bs2, ⟨as, rfl, he, ht, rfl⟩, ho2⟩ := (ih (old ++ [a]) _ _ _).mp hrest
        simp only [append_assoc, singleton_append] at ht ⊢
        refine ⟨bs1 ++ bs2, ⟨a :: as, rfl, .cons hg he, inTurn_cons.mpr ⟨?_, ht⟩, rfl⟩,
          ho1.trans ho2⟩
        rwa [append_nil]
      · rintro ⟨_, ⟨as, hlen, he, ht, rfl⟩, ho⟩
        cases he with
        | nil => cases hlen
        | @cons a as bs bs' hg he =>
          obtain ⟨hj, ht⟩ := inTurn_cons.mp ht
          rw [append_nil] at hj
          obtain ⟨c1, ho1, ho2⟩ := ho.split
          refine ⟨D (old ++ [a]), c1, (h old _ _ _).mpr ⟨bs, ⟨a, hg, hj, rfl⟩, ho1⟩, ?_⟩
          refine (ih (old ++ [a]) _ _ _).mpr ⟨bs', ⟨as, Nat.succ.inj hlen, he, ?_, ?_⟩, ho2⟩
          · simpa only [append_assoc, singleton_append] using ht
          · simp only [append_assoc, singleton_append]
  exact hfold []

theorem many {d : Decode α} {G : List UInt8 → α → Prop} (h : Reads d G) (n : Nat) :
    Reads (many n d) fun bs as => as.length = n ∧ Each G as bs := by
  have hstep : ∀ as : List α, Reads (do return (← d) :: as.reverse)
      fun bs acc => ∃ a, G bs a ∧ True ∧ acc = (as ++ [a]).reverse := by
    intro as
    refine (h.bind fun a => Reads.pure (a :: as.reverse)).congr fun bs acc => ?_
    simp only [reverse_append, reverse_singleton, singleton_append, true_and]
    constructor
    · rintro ⟨bs1, bs2, a, rfl, hg, rfl, rfl⟩
      exact ⟨a, by rwa [append_nil], rfl⟩
    · rintro ⟨a, hg, rfl⟩
      exact ⟨bs, [], a, (append_nil _).symm, hg, rfl, rfl⟩
  refine ((Reads.entries (D := List.reverse) hstep n).bind fun as =>
    Reads.pure as.reverse).congr fun bs as => ?_
  constructor
  · rintro ⟨bs1, bs2, _, rfl, ⟨as, hlen, he, -, rfl⟩, rfl, rfl⟩
    rw [append_nil, reverse_reverse]
    exact ⟨hlen, he⟩
  · rintro ⟨hlen, he⟩
    exact ⟨bs, [], as.reverse, (append_nil _).symm,
      ⟨as, hlen, he, fun _ _ _ => trivial, rfl⟩, rfl, (reverse_reverse as).symm⟩

end Reads

/-! ## Views of what is read -/

variable {γ δ : Type}

def Shows (view : α → β) (d : Decode α) (G : List UInt8 → β → Prop) : Prop :=
  ∀ c b c', (∃ a, d c = .ok a c' ∧ view a = b) ↔ ∃ bs, G bs b ∧ c.Over bs c'

theorem Reads.shows {view : α → β} {d : Decode α} {G : List UInt8 → α → Prop} (h : Reads d G) :
    Shows view d fun bs b => ∃ a, G bs a ∧ view a = b := by
  intro c b c'
  constructor
  · rintro ⟨a, ha, rfl⟩
    obtain ⟨bs, hg, ho⟩ := (h c a c').mp ha
    exact ⟨bs, ⟨a, hg, rfl⟩, ho⟩
  · rintro ⟨bs, ⟨a, hg, rfl⟩, ho⟩
    exact ⟨a, (h c a c').mpr ⟨bs, hg, ho⟩, rfl⟩

namespace Shows

variable {view : α → β} {d : Decode α} {G G' : List UInt8 → β → Prop}

theorem congr (h : Shows view d G) (hG : ∀ bs b, G bs b ↔ G' bs b) : Shows view d G' :=
  fun c b c' => (h c b c').trans (exists_congr fun bs => and_congr_left fun _ => hG bs b)

theorem bind {f : α → Decode γ} {view' : γ → δ} {H : β → List UInt8 → δ → Prop}
    (hd : Shows view d G) (hf : ∀ a, Shows view' (f a) (H (view a))) :
    Shows view' (d >>= f) fun bs r => ∃ bs1 bs2 b, bs = bs1 ++ bs2 ∧ G bs1 b ∧ H b bs2 r := by
  intro c r c'
  constructor
  · rintro ⟨_, h, rfl⟩
    obtain ⟨a, c1, h1, h2⟩ := bind_eq_ok.mp h
    obtain ⟨bs1, hg, ho1⟩ := (hd _ _ _).mp ⟨a, h1, rfl⟩
    obtain ⟨bs2, hh, ho2⟩ := (hf a _ _ _).mp ⟨_, h2, rfl⟩
    exact ⟨_, ⟨bs1, bs2, _, rfl, hg, hh⟩, ho1.trans ho2⟩
  · rintro ⟨_, ⟨bs1, bs2, b, rfl, hg, hh⟩, ho⟩
    obtain ⟨c1, ho1, ho2⟩ := ho.split
    obtain ⟨a, h1, rfl⟩ := (hd _ _ _).mpr ⟨bs1, hg, ho1⟩
    obtain ⟨d', h2, rfl⟩ := (hf a _ _ _).mpr ⟨bs2, hh, ho2⟩
    exact ⟨d', bind_eq_ok.mpr ⟨a, c1, h1, h2⟩, rfl⟩

end Shows

end Decode

end Wasm
