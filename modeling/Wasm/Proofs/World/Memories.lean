import Wasm.Proofs.Machine.Accesses
import Wasm.Proofs.World.Limits

/-! # A memory by its history

Each call leaves a byte alone that it does not write (`Memory.Call.byteAt_after`). -/

namespace Wasm

open List
open Relation (ReflTransGen)

namespace Memory

/-- A call on a memory. -/
inductive Call where
  | grow (delta : Nat)
  | load (addr len : Nat)
  | write (addr : Nat) (bytes : List UInt8)
  | store (addr len value : Nat)
  | fill (dst : Nat) (b : UInt8) (len : Nat)
  | copy (dst src len : Nat)
  | copyFrom (source : Memory) (dst src len : Nat)
  | init (dst : Nat) (data : ByteArray) (src len : Nat)
  | poke (addr : Nat) (b : UInt8)

namespace Call

/-- Makes a call; what it yields is dropped. -/
def run : Call → MemoryM Unit
  | .grow delta => do let _ ← Memory.grow delta
  | .load addr len => fun m =>
    match m.load addr len with
    | .ok _ => .ok () m
    | .error trap => .error trap m
  | .write addr bytes => Memory.write addr bytes
  | .store addr len value => Memory.store addr len value
  | .fill dst b len => Memory.fill dst b len
  | .copy dst src len => Memory.copy dst src len
  | .copyFrom source dst src len => Memory.copyFrom source dst src len
  | .init dst data src len => Memory.init dst data src len
  | .poke addr b => do let _ ← Memory.poke addr b

/-- The range that a call writes. -/
def range : Call → Nat × Nat
  | .grow _ | .load .. => (0, 0)
  | .write addr bytes => (addr, bytes.length)
  | .store addr len _ => (addr, len)
  | .fill dst _ len | .copy dst _ len | .copyFrom _ dst _ len | .init dst _ _ len => (dst, len)
  | .poke addr _ => (addr, 1)

/-- A call writes the byte at an address of the memory. -/
def Writes (call : Call) (m : Memory) (k : Nat) : Prop :=
  k < m.byteLength ∧ call.range.1 ≤ k ∧ k < call.range.1 + call.range.2 ∧
    ∃ m', call.run m = .ok () m'

end Call

/-- The memory after calls, trapping or not. -/
def after (m : Memory) (calls : List Call) : Memory :=
  calls.foldl (fun m call => stateAfter call.run m) m

/-- One of these calls wrote the byte at an address. -/
def Written (m : Memory) (calls : List Call) (k : Nat) : Prop :=
  ∃ before call rest, calls = before ++ call :: rest ∧ call.Writes (m.after before) k

/-! ## Bytes -/

theorem byteAt_zeros (m : Memory) (delta k : Nat) :
    byteAt { m with pages := m.pages ++ Array.replicate delta Page.zero } k = m.byteAt k := by
  have hzero : ∀ i h, Page.zero.get i h = 0 := by
    intro i h
    exact Array.getElem_replicate _
  simp only [byteAt, Array.getElem?_append, Array.getElem?_replicate]
  by_cases hin : k / pageSize < m.pages.size
  · rw [if_pos hin]
  · rw [if_neg hin, Array.getElem?_eq_none (Nat.le_of_not_lt hin)]
    by_cases hnew : k / pageSize - m.pages.size < delta
    · rw [if_pos hnew]
      exact hzero _ _
    · rw [if_neg hnew]

theorem contents_zeros (m : Memory) (delta : Nat) :
    contents { m with pages := m.pages ++ Array.replicate delta Page.zero } =
      m.contents ++ List.replicate (65536 * delta) 0 := by
  have hzero : Page.zero.bytes.data.toList = List.replicate 65536 0 := Array.toList_replicate
  rw [contents, Array.toList_append, flatMap_append, Array.toList_replicate,
    flatMap_replicate, hzero, flatten_replicate_replicate, Nat.mul_comm]
  rfl

namespace Call

variable {call : Call} {m : Memory} {k : Nat}

theorem stateAfter_load (addr len : Nat) : stateAfter (load addr len).run m = m := by
  cases hload : m.load addr len with
  | ok value => simp only [stateAfter, run, hload]
  | error trap => simp only [stateAfter, run, hload]

theorem byteAt_of_run {bytes : List UInt8} {P : Prop} [Decidable P]
    {fail : EStateM.Result Trap Memory Unit}
    (hrun : call.run m = if P then .ok () (m.overwrite call.range.1 bytes) else fail)
    (hlen : P → bytes.length = call.range.2 ∧ call.range.1 + call.range.2 ≤ m.byteLength)
    (hfail : fail = .ok () m ∨ fail = .error .outOfBounds m) (hk : ¬ call.Writes m k) :
    (stateAfter call.run m).byteAt k = m.byteAt k := by
  by_cases hP : P
  · obtain ⟨hbytes, hfits⟩ := hlen hP
    rw [if_pos hP] at hrun
    rw [stateAfter, hrun]
    rw [m.byteAt_overwrite (hbytes ▸ hfits)]
    by_cases hle : call.range.1 ≤ k
    · have hout : call.range.1 + call.range.2 ≤ k :=
        Nat.le_of_not_lt fun hlt => hk ⟨by omega, hle, hlt, _, hrun⟩
      rw [if_pos hle, getElem?_eq_none (by omega)]
      rfl
    · rw [if_neg hle]
  · rw [if_neg hP] at hrun
    rw [stateAfter, hrun]
    obtain rfl | rfl := hfail
    · rfl
    · rfl

theorem byteAt_after (call : Call) (hk : ¬ call.Writes m k) :
    (stateAfter call.run m).byteAt k = m.byteAt k := by
  cases call with
  | grow delta =>
    by_cases hfits : m.pageCount + delta ≤ m.growthLimit
    · have hgrow : Memory.grow delta m = .ok m.pageCount _ := if_pos hfits
      rw [stateAfter, run, bind_of_ok hgrow]
      exact m.byteAt_zeros delta k
    · have hgrow : Memory.grow delta m = .ok (-1) m := if_neg hfits
      rw [stateAfter, run, bind_of_ok hgrow]
      rfl
  | load addr len => rw [stateAfter_load]
  | write addr bytes =>
    have hrun : (write addr bytes).run m = if addr + bytes.length ≤ m.byteLength then
        .ok () (m.overwrite addr bytes) else .error .outOfBounds m := by
      simp only [run, Memory.write, guarded, inBounds, decide_eq_true_eq]
    exact byteAt_of_run hrun (fun h => ⟨rfl, h⟩) (.inr rfl) hk
  | store addr len value =>
    exact byteAt_of_run store_eq (fun h => ⟨LittleEndian.length_ofNat .., h⟩) (.inr rfl) hk
  | fill dst b len =>
    exact byteAt_of_run fill_eq (fun h => ⟨length_replicate, h⟩) (.inr rfl) hk
  | copy dst src len =>
    exact byteAt_of_run (copy_eq.trans copyFrom_eq) (fun h => ⟨m.length_slice .., h.2⟩)
      (.inr rfl) hk
  | copyFrom source dst src len =>
    exact byteAt_of_run copyFrom_eq (fun h => ⟨source.length_slice .., h.2⟩) (.inr rfl) hk
  | init dst data src len =>
    refine byteAt_of_run (m.init_eq ..) (fun h => ⟨?_, h.2⟩) (.inr rfl) hk
    rw [toList_eq_data, Array.length_toList, ByteArray.size_data, ByteArray.size_extract]
    show _ = len
    omega
  | poke addr b =>
    have hrun : (poke addr b).run m =
        if m.inBounds addr 1 then .ok () (m.overwrite addr [b]) else .ok () m := by
      by_cases hin : m.inBounds addr 1
      · have hpoke : Memory.poke addr b m = .ok true (m.setByte addr b) := if_pos hin
        rw [run, bind_of_ok hpoke, if_pos hin]
        rfl
      · have hpoke : Memory.poke addr b m = .ok false m := if_neg hin
        rw [run, bind_of_ok hpoke, if_neg hin]
        rfl
    exact byteAt_of_run hrun (fun h => ⟨rfl, of_decide_eq_true h⟩) (.inl rfl) hk

theorem changes_after (call : Call) (m : Memory) : m.Changes (stateAfter call.run m) := by
  have hsettles : Settles Changes call.run := by
    cases call with
    | grow delta => exact (settles_grow delta).yielding _
    | load addr len =>
      intro m
      cases hload : m.load addr len with
      | ok value => simpa only [run, hload] using .none
      | error trap => simp only [run, hload]
    | write addr bytes => exact settles_write addr bytes
    | store addr len value => exact settles_store addr len value
    | fill dst b len => exact settles_fill dst b len
    | copy dst src len => exact settles_copy dst src len
    | copyFrom source dst src len => exact settles_copyFrom source dst src len
    | init dst data src len => exact settles_init dst data src len
    | poke addr b => exact (settles_poke addr b).yielding _
  have hcall := hsettles m
  unfold stateAfter
  cases hrun : call.run m with
  | ok _ m' =>
    rw [hrun] at hcall
    exact hcall
  | error trap m' =>
    rw [hrun] at hcall
    rw [hcall]
    exact .none

end Call

/-! ## Calls in a row -/

theorem changes_after (m : Memory) (calls : List Call) :
    ReflTransGen Changes m (m.after calls) := by
  induction calls generalizing m with
  | nil => exact .refl
  | cons call calls ih => exact .head (call.changes_after m) (ih _)

variable {m : Memory} {k : Nat}

theorem byteAt_after {calls : List Call} (h : ¬ m.Written calls k) :
    (m.after calls).byteAt k = m.byteAt k := by
  induction calls generalizing m with
  | nil => rfl
  | cons call calls ih =>
    have hfirst : ¬ call.Writes m k := fun hw => h ⟨[], call, calls, rfl, hw⟩
    have hrest : ¬ Written (stateAfter call.run m) calls k := by
      rintro ⟨before, call', rest, rfl, hw⟩
      exact h ⟨call :: before, call', rest, rfl, hw⟩
    exact (ih hrest).trans (call.byteAt_after hfirst)

theorem load_of_byteAt (hk : k < m.byteLength) (hzero : m.byteAt k = 0) : m.load k 1 = .ok 0 := by
  have hslice : m.slice k 1 = [0] := by rw [← hzero]; rfl
  have hin : m.inBounds k 1 = true := decide_eq_true hk
  rw [load, if_pos hin, hslice]
  rfl

theorem grow_eq (m : Memory) (delta : Nat) :
    if m.pageCount + delta ≤ m.growthLimit then
      ∃ m', grow delta m = .ok m.pageCount m' ∧
        m'.contents = m.contents ++ List.replicate (65536 * delta) 0
    else grow delta m = .ok (-1) m := by
  by_cases hfits : m.pageCount + delta ≤ m.growthLimit
  · rw [if_pos hfits]
    exact ⟨_, if_pos hfits, m.contents_zeros delta⟩
  · rw [if_neg hfits]
    exact if_neg hfits

theorem create_eq_ok {initial : Nat} {maximum : Option Nat} (h : create initial maximum = .ok m) :
    m.maximum = maximum ∧ m.pageCount ≤ initialLimit maximum ∧ ∀ k, m.byteAt k = 0 := by
  unfold create at h
  split at h
  · next hle =>
    cases h
    refine ⟨rfl, by rwa [pageCount, Array.size_replicate], fun k => ?_⟩
    have hzeros := byteAt_zeros ⟨#[], maximum, maxPages⟩ initial k
    rwa [Array.empty_append] at hzeros
  · cases h

/-- **A memory by its history**: it has whole pages, never fewer, within its maximum; it grows
    exactly within maximum and cap, by zeros; and a byte that no call wrote is zero. -/
theorem history {initial : Nat} {maximum : Option Nat} {new : Memory}
    (hnew : create initial maximum = .ok new) (cap : Nat) (calls more : List Call) :
    let m := (new.withPageCap cap).after calls
    m.contents.length = 65536 * m.pageCount ∧ m.byteLength = 65536 * m.pageCount ∧
    m.pageCount ≤ (m.after more).pageCount ∧ m.pageCount ≤ 65536 ∧
    (∀ max, maximum = some max → m.pageCount ≤ max) ∧
    (∀ delta, if m.pageCount + delta ≤ min (maximum.getD 65536) (min cap 65536) then
        ∃ m', grow delta m = .ok m.pageCount m' ∧
          m'.contents = m.contents ++ List.replicate (65536 * delta) 0
      else grow delta m = .ok (-1) m) ∧
    ∀ k < m.byteLength, ¬ (new.withPageCap cap).Written calls k → m.load k 1 = .ok 0 := by
  intro m
  obtain ⟨hmax, hcount, hzero⟩ := create_eq_ok hnew
  have hchanges : ReflTransGen Changes (new.withPageCap cap) m := changes_after _ calls
  have hlimit : (new.withPageCap cap).growthLimit = min (maximum.getD 65536) (min cap 65536) := by
    rw [← hmax]
    rfl
  have hbound : m.pageCount ≤ initialLimit maximum := by
    refine bounded_of_changes hchanges ?_ hcount
    rw [hlimit, initialLimit, maxPages]
    omega
  rw [initialLimit, Nat.le_min] at hbound
  refine ⟨m.length_contents, Nat.mul_comm _ _, (grows_of_changes (changes_after m more)).2.2,
    hbound.2, fun max hsome => ?_, fun delta => ?_, fun k hk hunwritten => ?_⟩
  · subst hsome
    exact hbound.1
  · rw [← hlimit, ← growthLimit_of_changes hchanges]
    exact m.grow_eq delta
  · exact load_of_byteAt hk ((byteAt_after hunwritten).trans (hzero k))

/-- A store over the end of a page traps before the memory grows and is done after. -/
theorem history_second_page : ∃ new, create 1 (some 3) = .ok new ∧
    let m := (new.withPageCap 2).after [.store 65533 8 255, .grow 1, .store 65533 8 255]
    m.pageCount = 2 ∧ m.load 65541 1 = .ok 0 ∧ grow 1 m = .ok (-1) m := by
  have hnew : create 1 (some 3) = .ok ⟨Array.replicate 1 Page.zero, some 3, 65536⟩ :=
    if_pos (by decide)
  refine ⟨_, hnew, ?_⟩
  intro m
  have hcount : m.pageCount = 2 := by decide +kernel
  obtain ⟨-, hlen, -, -, -, hgrow, hload⟩ := history hnew 2 _ []
  refine ⟨hcount, hload 65541 ?_ ?_, ?_⟩
  · rw [hlen]
    show 65541 < 65536 * m.pageCount
    omega
  · rintro ⟨before, call, rest, hsplit, -, -, hhi, -⟩
    have hmem : call ∈ before ++ call :: rest := by simp
    rw [← hsplit] at hmem
    simp only [mem_cons, not_mem_nil, or_false] at hmem
    obtain rfl | rfl | rfl := hmem
    all_goals exact absurd hhi (by decide)
  · refine (if_neg ?_ : _ = _).mp (hgrow 1)
    show ¬ m.pageCount + 1 ≤ 2
    omega

end Memory

end Wasm
