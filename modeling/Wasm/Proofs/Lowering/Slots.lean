import Wasm.Bytecode.Emission

/-! # Frame slots

Locals in consecutive slots, and scratch slots behind them (`LocalSlot.Before`). -/

namespace Wasm

open List

variable {base : Nat} {ts : List ValueType} {e : Emission} {s : Scratch}

theorem ValueType.slotWidth_pos (t : ValueType) : 0 < t.slotWidth := by
  cases t <;> decide

/-! ## Locals -/

namespace LocalSlot

variable {i : Nat} {entry : LocalSlot}

/-- Locals in consecutive slots from `slot` on. -/
def layoutFrom (slot : Nat) : List ValueType → List LocalSlot
  | [] => []
  | type :: types => ⟨type, slot⟩ :: layoutFrom (slot + type.slotWidth) types

/-- The number of slots that values take. -/
def width : List ValueType → Nat
  | [] => 0
  | type :: types => type.slotWidth + width types

/-- The locals of a function, by their types. -/
def layout (types : List ValueType) : Array LocalSlot := (layoutFrom 0 types).toArray

theorem width_append (ts us : List ValueType) : width (ts ++ us) = width ts + width us := by
  induction ts with
  | nil => rw [nil_append, width, Nat.zero_add]
  | cons t ts ih => rw [cons_append, width, width, ih, Nat.add_assoc]

theorem layoutFrom_append (slot : Nat) (ts us : List ValueType) :
    layoutFrom slot (ts ++ us) = layoutFrom slot ts ++ layoutFrom (slot + width ts) us := by
  induction ts generalizing slot with
  | nil => rw [nil_append, layoutFrom, width, nil_append, Nat.add_zero]
  | cons t ts ih =>
    rw [cons_append, layoutFrom, layoutFrom, ih, width, cons_append, Nat.add_assoc]

theorem length_layoutFrom (slot : Nat) (ts : List ValueType) :
    (layoutFrom slot ts).length = ts.length := by
  induction ts generalizing slot with
  | nil => rfl
  | cons t ts ih => rw [layoutFrom, length_cons, length_cons, ih]

theorem size_layout (ts : List ValueType) : (layout ts).size = ts.length := by
  rw [layout, size_toArray, length_layoutFrom]

theorem getElem?_layoutFrom {slot : Nat} (h : (layoutFrom slot ts)[i]? = some entry) :
    ts[i]? = some entry.type ∧ entry.slot = slot + width (ts.take i) := by
  induction ts generalizing slot i with
  | nil => cases h
  | cons t ts ih =>
    cases i with
    | zero =>
      cases h
      exact ⟨rfl, rfl⟩
    | succ i =>
      obtain ⟨ht, hs⟩ := @ih i (slot + t.slotWidth) h
      refine ⟨ht, ?_⟩
      rw [hs, take_succ_cons, width, Nat.add_assoc]

theorem getElem?_layout (h : (layout ts)[i]? = some entry) :
    ts[i]? = some entry.type ∧ entry.slot = width (ts.take i) := by
  rw [layout, getElem?_toArray] at h
  have := getElem?_layoutFrom h
  rwa [Nat.zero_add] at this

/-- One entry's slots end before the other's. -/
def Before (entry entry' : LocalSlot) : Prop := entry.slot + entry.type.slotWidth ≤ entry'.slot

theorem bounds_layoutFrom (slot : Nat) (ts : List ValueType) : ∀ entry ∈ layoutFrom slot ts,
    slot ≤ entry.slot ∧ entry.slot + entry.type.slotWidth ≤ slot + width ts := by
  induction ts generalizing slot with
  | nil => exact forall_mem_nil _
  | cons t ts ih =>
    rw [layoutFrom, width]
    refine forall_mem_cons.mpr ⟨⟨Nat.le_refl _, by dsimp only; omega⟩, fun entry he => ?_⟩
    have := ih _ entry he
    omega

theorem pairwise_layoutFrom (slot : Nat) (ts : List ValueType) :
    (layoutFrom slot ts).Pairwise Before := by
  induction ts generalizing slot with
  | nil => exact .nil
  | cons t ts ih => exact .cons (fun entry he => (bounds_layoutFrom _ ts entry he).1) (ih _)

theorem slot_lt_width (h : (layout ts)[i]? = some entry) : entry.slot < width ts := by
  rw [layout, getElem?_toArray] at h
  have := (bounds_layoutFrom 0 ts entry (mem_of_getElem? h)).2
  have := entry.type.slotWidth_pos
  omega

theorem slot_injective {j : Nat} {entry' : LocalSlot}
    (h : (layout ts)[i]? = some entry) (h' : (layout ts)[j]? = some entry')
    (hs : entry.slot = entry'.slot) : i = j := by
  rw [layout, getElem?_toArray] at h h'
  obtain ⟨hi, rfl⟩ := List.getElem?_eq_some_iff.mp h
  obtain ⟨hj, rfl⟩ := List.getElem?_eq_some_iff.mp h'
  have hp := pairwise_iff_getElem.mp (pairwise_layoutFrom 0 ts)
  have hpos := ValueType.slotWidth_pos
  rcases Nat.lt_trichotomy i j with hlt | heq | hgt
  · have := hp i j hi hj hlt
    have := hpos (layoutFrom 0 ts)[i].type
    unfold Before at *
    omega
  · exact heq
  · have := hp j i hj hi hgt
    have := hpos (layoutFrom 0 ts)[j].type
    unfold Before at *
    omega

end LocalSlot

/-! ## Scratch slots -/

/-- The place and the type of a scratch slot. -/
def Scratch.entry (s : Scratch) : LocalSlot := ⟨s.type, s.slot⟩

/-- Scratch slots lie apart, from `base` to `next`. -/
structure Scratch.Separate (base : Nat) (scratch : List Scratch) (next : Nat) : Prop where
  base_le : base ≤ next
  bounds : ∀ s ∈ scratch, base ≤ s.slot ∧ s.slot + s.type.slotWidth ≤ next
  apart : scratch.Pairwise fun s s' => s'.entry.Before s.entry
  keys : scratch.Pairwise fun s s' => ¬ (s'.type = s.type ∧ s'.ordinal = s.ordinal)

theorem Scratch.separate_nil (base : Nat) : Separate base [] base :=
  ⟨Nat.le_refl _, forall_mem_nil _, .nil, .nil⟩

namespace Emission

def Separate (base : Nat) (e : Emission) : Prop := Scratch.Separate base e.scratch e.nextSlot

section

variable (h : e.Separate base)
include h

theorem Separate.scratchSlot (t : ValueType) (n : Nat) : (e.scratchSlot t n).2.Separate base := by
  unfold Emission.scratchSlot
  split
  · exact h
  · next hnone =>
      refine ⟨Nat.le_add_right_of_le h.base_le, ?_, ?_, ?_⟩
      · refine forall_mem_cons.mpr ⟨⟨h.base_le, Nat.le_refl _⟩, fun s hs => ?_⟩
        obtain ⟨hle, hlt⟩ := h.bounds s hs
        exact ⟨hle, Nat.le_add_right_of_le hlt⟩
      · exact pairwise_cons.mpr ⟨fun s hs => (h.bounds s hs).2, h.apart⟩
      · refine pairwise_cons.mpr ⟨fun s hs hkey => ?_, h.keys⟩
        exact find?_eq_none.mp hnone s hs (decide_eq_true hkey)

theorem Separate.lt_nextSlot (hs : s ∈ e.scratch) : s.slot < e.nextSlot :=
  Nat.lt_of_lt_of_le (Nat.lt_add_of_pos_right s.type.slotWidth_pos) (h.bounds s hs).2

theorem Separate.scratchSlots (seen ts : List ValueType) :
    (Emission.scratchSlots seen ts e).2.Separate base := by
  induction ts generalizing seen e with
  | nil => exact h
  | cons t ts ih => exact ih (h.scratchSlot t _) _

theorem Separate.before_or_before {s' : Scratch} (hs : s ∈ e.scratch) (hs' : s' ∈ e.scratch)
    (hne : s ≠ s') : s.entry.Before s'.entry ∨ s'.entry.Before s.entry := by
  obtain ⟨i, hi, rfl⟩ := getElem_of_mem hs
  obtain ⟨j, hj, rfl⟩ := getElem_of_mem hs'
  have hp := pairwise_iff_getElem.mp h.apart
  rcases Nat.lt_trichotomy i j with hlt | rfl | hgt
  · exact .inr (hp i j hi hj hlt)
  · exact absurd rfl hne
  · exact .inl (hp j i hj hi hgt)

theorem Separate.eq_of_slot_eq {s' : Scratch} (hs : s ∈ e.scratch) (hs' : s' ∈ e.scratch)
    (heq : s.slot = s'.slot) : s = s' := by
  refine Decidable.byContradiction fun hne => ?_
  have hpos := s.type.slotWidth_pos
  have hpos' := s'.type.slotWidth_pos
  have hb := h.before_or_before hs hs' hne
  unfold LocalSlot.Before Scratch.entry at hb
  dsimp only at hb
  omega

end

theorem mem_scratchSlot (e : Emission) (t : ValueType) (n : Nat) :
    ⟨t, n, (e.scratchSlot t n).1⟩ ∈ (e.scratchSlot t n).2.scratch := by
  unfold scratchSlot
  split
  · next s hs =>
      have hmem := mem_of_find?_eq_some hs
      have hkey : s.type = t ∧ s.ordinal = n := by simpa using find?_some hs
      rwa [← hkey.1, ← hkey.2]
  · exact mem_cons_self

theorem scratch_scratchSlot (e : Emission) (t : ValueType) (n : Nat) :
    e.scratch <:+ (e.scratchSlot t n).2.scratch := by
  unfold scratchSlot
  split
  · exact suffix_rfl
  · exact suffix_cons _ _

theorem scratch_scratchSlots (seen ts : List ValueType) (e : Emission) :
    e.scratch <:+ (scratchSlots seen ts e).2.scratch := by
  induction ts generalizing seen e with
  | nil => exact suffix_rfl
  | cons t ts ih => exact (scratch_scratchSlot e t _).trans (ih _ _)

/-- The scratch slots of carried values. -/
def scratchEntries (seen : List ValueType) : List ValueType → List Nat → List Scratch
  | t :: ts, slot :: slots => ⟨t, seen.count t, slot⟩ :: scratchEntries (t :: seen) ts slots
  | _, _ => []

theorem length_scratchSlots (seen ts : List ValueType) (e : Emission) :
    (scratchSlots seen ts e).1.length = ts.length := by
  induction ts generalizing seen e with
  | nil => rfl
  | cons t ts ih => exact congrArg Nat.succ (ih _ _)

theorem map_slot_scratchEntries (seen : List ValueType) {slots : List Nat}
    (h : slots.length = ts.length) : (scratchEntries seen ts slots).map Scratch.slot = slots := by
  induction ts generalizing seen slots with
  | nil =>
    rw [length_eq_zero_iff.mp h]
    rfl
  | cons t ts ih =>
    cases slots with
    | nil => cases h
    | cons slot slots =>
      rw [scratchEntries, map_cons, ih _ (Nat.succ.inj h)]

theorem mem_scratchEntries (seen ts : List ValueType) (e : Emission) :
    ∀ s ∈ scratchEntries seen ts (scratchSlots seen ts e).1,
      s ∈ (scratchSlots seen ts e).2.scratch := by
  induction ts generalizing seen e with
  | nil => exact forall_mem_nil _
  | cons t ts ih =>
    refine forall_mem_cons.mpr ⟨?_, ih _ _⟩
    exact (scratch_scratchSlots (t :: seen) ts (e.scratchSlot t (seen.count t)).2).subset
      (mem_scratchSlot e t _)

theorem count_le_ordinal (seen ts : List ValueType) (slots : List Nat) :
    ∀ s ∈ scratchEntries seen ts slots, seen.count s.type ≤ s.ordinal := by
  induction ts generalizing seen slots with
  | nil => exact forall_mem_nil _
  | cons t ts ih =>
    cases slots with
    | nil => exact forall_mem_nil _
    | cons slot slots =>
      refine forall_mem_cons.mpr ⟨Nat.le_refl _, fun s hs => ?_⟩
      exact Nat.le_trans count_le_count_cons (ih _ _ s hs)

theorem scratchEntries_nodup (seen ts : List ValueType) (slots : List Nat) :
    (scratchEntries seen ts slots).Nodup := by
  induction ts generalizing seen slots with
  | nil => exact nodup_nil
  | cons t ts ih =>
    cases slots with
    | nil => exact nodup_nil
    | cons slot slots =>
      refine nodup_cons.mpr ⟨fun hmem => ?_, ih _ _⟩
      have hle := count_le_ordinal _ _ _ _ hmem
      rw [count_cons_self] at hle
      exact Nat.not_succ_le_self _ hle

theorem scratchSlots_nodup (h : e.Separate base)
    (ts : List ValueType) : (scratchSlots [] ts e).1.Nodup := by
  rw [← map_slot_scratchEntries [] (length_scratchSlots [] ts e)]
  have hs := h.scratchSlots [] ts
  have hmem := mem_scratchEntries [] ts e
  refine List.Pairwise.map _ (fun _ _ h => h) ?_
  refine (scratchEntries_nodup [] ts _).imp_of_mem fun ha hb hne heq => ?_
  exact hne (hs.eq_of_slot_eq (hmem _ ha) (hmem _ hb) heq)

theorem scratchSlots_bounds (h : e.Separate base)
    (ts : List ValueType) : ∀ slot ∈ (scratchSlots [] ts e).1,
      base ≤ slot ∧ slot < (scratchSlots [] ts e).2.nextSlot := by
  intro slot hslot
  rw [← map_slot_scratchEntries [] (length_scratchSlots [] ts e)] at hslot
  obtain ⟨s, hs, rfl⟩ := mem_map.mp hslot
  have hmem := mem_scratchEntries [] ts e s hs
  have hs := h.scratchSlots [] ts
  exact ⟨(hs.bounds s hmem).1, hs.lt_nextSlot hmem⟩

end Emission

end Wasm
