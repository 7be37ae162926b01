import Wasm.Module.Carrier

/-! # Carriers under concurrent calls

A call looks for a carrier and, if there is none, publishes one.  `Callers.Follows` says what a step
may do. -/

namespace Wasm

open List

variable {results : List ValueType} {pool : CarrierPool} {carrier : Carrier}

theorem Carrier.forResults_eq (h : 2 ≤ results.length) :
    forResults results = .bundle ⟨results⟩ := by
  match results, h with
  | _ :: _ :: _, _ => rfl

theorem Carrier.bundleFor?_eq (h : 2 ≤ results.length) : bundleFor? results = some ⟨results⟩ := by
  rw [bundleFor?, forResults_eq h]

/-! ## The pool -/

namespace CarrierPool

variable {id : Nat}

theorem getElem?_of_lookup? (h : pool.lookup? carrier = some id) :
    pool.carriers[id]? = some carrier := by
  obtain ⟨hid, heq, -⟩ := findIdx?_eq_some_iff_getElem.mp h
  rw [getElem?_eq_getElem hid, of_decide_eq_true heq]

theorem lookup?_of_getElem? (hnodup : pool.carriers.Nodup) (h : pool.carriers[id]? = some carrier) :
    pool.lookup? carrier = some id := by
  cases hfound : pool.lookup? carrier with
  | none =>
    have hnone := findIdx?_eq_none_iff.mp hfound carrier (mem_of_getElem? h)
    exact absurd rfl (of_decide_eq_false hnone)
  | some id' =>
    have h' := getElem?_of_lookup? hfound
    obtain ⟨hid, -⟩ := List.getElem?_eq_some_iff.mp h
    rw [(getElem?_inj hid hnodup).mp (h.trans h'.symm)]

theorem publish_spec (hnodup : pool.carriers.Nodup) (carrier : Carrier) :
    (pool.publish carrier).2.carriers.Nodup ∧ pool.carriers <+: (pool.publish carrier).2.carriers ∧
      (pool.publish carrier).2.carriers[(pool.publish carrier).1]? = some carrier := by
  unfold publish
  cases hfound : pool.lookup? carrier with
  | some id => exact ⟨hnodup, prefix_refl _, getElem?_of_lookup? hfound⟩
  | none =>
    refine ⟨nodup_append.mpr ⟨hnodup, pairwise_singleton _ _, ?_⟩, prefix_append _ _,
      getElem?_concat_length⟩
    intro other hother new hnew
    rw [mem_singleton.mp hnew]
    exact of_decide_eq_false (findIdx?_eq_none_iff.mp hfound other hother)

end CarrierPool

/-! ## Calls -/

/-- How far a call for a carrier is. -/
inductive CarrierCall where
  | asked
  | missed
  | answered (id : Nat)
deriving DecidableEq

/-- A pool and the calls on it. -/
structure Callers (ι : Type) where
  pool : CarrierPool
  calls : ι → CarrierCall

namespace Callers

variable {ι : Type} [DecidableEq ι]

/-- An empty pool, and calls that have not looked yet. -/
def start : Callers ι := ⟨.empty, fun _ => .asked⟩

/-- One call is this far, with this pool. -/
def put (s : Callers ι) (i : ι) (pool : CarrierPool) (call : CarrierCall) : Callers ι :=
  ⟨pool, fun j => if j = i then call else s.calls j⟩

/-- The next step of a call. -/
def advance (requests : ι → List ValueType) (s : Callers ι) (i : ι) : Callers ι :=
  match Carrier.bundleFor? (requests i), s.calls i with
  | some carrier, .asked =>
    match s.pool.lookup? carrier with
    | some id => s.put i s.pool (.answered id)
    | none => s.put i s.pool .missed
  | some carrier, .missed =>
    let (id, pool) := s.pool.publish carrier
    s.put i pool (.answered id)
  | _, _ => s

/-- The steps of calls in the order of a schedule. -/
def run (requests : ι → List ValueType) (schedule : List ι) : Callers ι :=
  schedule.foldl (advance requests) start

theorem run_append (requests : ι → List ValueType) (schedule later : List ι) :
    run requests (schedule ++ later) = later.foldl (advance requests) (run requests schedule) :=
  foldl_append

theorem put_self (s : Callers ι) (i : ι) (pool : CarrierPool) (call : CarrierCall) :
    (s.put i pool call).calls i = call := if_pos rfl

theorem put_of_ne (s : Callers ι) {i j : ι} (h : j ≠ i) (pool : CarrierPool) (call : CarrierCall) :
    (s.put i pool call).calls j = s.calls j := if_neg h

/-! ## What a step may do -/

/-- A call looks in vain, or is answered from the pool. -/
inductive Moves (pool : CarrierPool) (carrier : Carrier) : CarrierCall → CarrierCall → Prop
  | miss : Moves pool carrier .asked .missed
  | find {id} (h : pool.carriers[id]? = some carrier) : Moves pool carrier .asked (.answered id)
  | publish {id} (h : pool.carriers[id]? = some carrier) : Moves pool carrier .missed (.answered id)
  | rest {id} : Moves pool carrier (.answered id) (.answered id)

namespace Moves

variable {call : CarrierCall} {id : Nat}

theorem ne_asked (h : Moves pool carrier call .asked) : False := by cases h

theorem eq_asked (h : Moves pool carrier call .missed) : call = .asked := by
  cases h
  rfl

theorem answer (h : Moves pool carrier call (.answered id)) :
    call = .answered id ∨ pool.carriers[id]? = some carrier := by
  cases h with
  | find hid | publish hid => exact .inr hid
  | rest => exact .inl rfl

theorem eq_answered (h : Moves pool carrier (.answered id) call) : call = .answered id := by
  cases h
  rfl

end Moves

/-- What a step of call `i` may do. -/
structure Follows (results : List ValueType) (i : ι) (s s' : Callers ι) : Prop where
  nodup : s'.pool.carriers.Nodup
  grows : s.pool.carriers <+: s'.pool.carriers
  others : ∀ j, j ≠ i → s'.calls j = s.calls j
  moves : Moves s'.pool ⟨results⟩ (s.calls i) (s'.calls i)

variable {requests : ι → List ValueType}

theorem follows_put {s : Callers ι} {i : ι} {call : CarrierCall} (hnodup : pool.carriers.Nodup)
    (hgrows : s.pool.carriers <+: pool.carriers) (hmoves : Moves pool ⟨results⟩ (s.calls i) call) :
    Follows results i s (s.put i pool call) where
  nodup := hnodup
  grows := hgrows
  others _ hj := s.put_of_ne hj pool call
  moves := by
    rw [put_self]
    exact hmoves

/-- **Every step does what it may.** -/
theorem advance_follows (requests : ι → List ValueType) {s : Callers ι}
    (hnodup : s.pool.carriers.Nodup) {i : ι}
    (hresults : 2 ≤ (requests i).length) : Follows (requests i) i s (advance requests s i) := by
  unfold advance
  rw [Carrier.bundleFor?_eq hresults]
  cases hcall : s.calls i with
  | asked =>
    dsimp only
    cases hfound : s.pool.lookup? ⟨requests i⟩ with
    | some id =>
      refine follows_put hnodup (prefix_refl _) (hcall ▸ .find ?_)
      exact CarrierPool.getElem?_of_lookup? hfound
    | none => exact follows_put hnodup (prefix_refl _) (hcall ▸ .miss)
  | missed =>
    obtain ⟨hnodup', hgrows, hid⟩ := CarrierPool.publish_spec hnodup ⟨requests i⟩
    exact follows_put hnodup' hgrows (hcall ▸ .publish hid)
  | answered id =>
    have hrest : Moves s.pool ⟨requests i⟩ (s.calls i) (s.calls i) := by
      rw [hcall]
      exact .rest
    exact ⟨hnodup, prefix_refl _, fun _ _ => rfl, hrest⟩

/-! ## What a run preserves -/

/-- Answered calls have the carrier they asked for. -/
structure Sound (requests : ι → List ValueType) (schedule : List ι) (s : Callers ι) : Prop where
  nodup : s.pool.carriers.Nodup
  answered : ∀ i id, s.calls i = .answered id → s.pool.carriers[id]? = some ⟨requests i⟩
  asked : ∀ i, s.calls i = .asked → schedule.count i = 0
  missed : ∀ i, s.calls i = .missed → schedule.count i = 1

theorem getElem?_of_grows {carriers carriers' : List Carrier} (h : carriers <+: carriers')
    {id : Nat} (hid : carriers[id]? = some carrier) : carriers'[id]? = some carrier := by
  obtain ⟨hlt, heq⟩ := List.getElem?_eq_some_iff.mp hid
  rw [prefix_iff_getElem?.mp h id hlt, heq]

theorem sound_start : Sound requests [] (start : Callers ι) where
  nodup := .nil
  answered _ _ h := by cases h
  asked _ _ := rfl
  missed _ h := by cases h

theorem Sound.step {schedule : List ι} {s s' : Callers ι} {i : ι} (h : Sound requests schedule s)
    (hs : Follows (requests i) i s s') : Sound requests (schedule ++ [i]) s' where
  nodup := hs.nodup
  answered j id hj := by
    by_cases hji : j = i
    · subst hji
      obtain hbefore | hid := (hj ▸ hs.moves).answer
      · exact getElem?_of_grows hs.grows (h.answered j id hbefore)
      · exact hid
    · rw [hs.others j hji] at hj
      exact getElem?_of_grows hs.grows (h.answered j id hj)
  asked j hj := by
    by_cases hji : j = i
    · subst hji
      exact (hj ▸ hs.moves).ne_asked.elim
    · rw [hs.others j hji] at hj
      rw [count_append, h.asked j hj, count_singleton, if_neg (by simpa using Ne.symm hji)]
  missed j hj := by
    by_cases hji : j = i
    · subst hji
      rw [count_append, h.asked j (hj ▸ hs.moves).eq_asked, count_singleton_self]
    · rw [hs.others j hji] at hj
      rw [count_append, h.missed j hj, count_singleton, if_neg (by simpa using Ne.symm hji)]

section

variable (hrequests : ∀ i, 2 ≤ (requests i).length)

include hrequests

theorem Sound.steps {schedule : List ι} {s : Callers ι} (h : Sound requests schedule s)
    (later : List ι) :
    Sound requests (schedule ++ later) (later.foldl (advance requests) s) ∧
      s.pool.carriers <+: (later.foldl (advance requests) s).pool.carriers ∧
      ∀ i id, s.calls i = .answered id →
        (later.foldl (advance requests) s).calls i = .answered id := by
  induction later generalizing schedule s with
  | nil =>
    rw [append_nil]
    exact ⟨h, prefix_refl _, fun _ _ hi => hi⟩
  | cons i later ih =>
    have hs := advance_follows requests h.nodup (hrequests i)
    obtain ⟨hsound, hgrows, hanswers⟩ := ih (h.step hs)
    rw [append_assoc] at hsound
    refine ⟨hsound, hs.grows.trans hgrows, fun j id hj => hanswers j id ?_⟩
    by_cases hji : j = i
    · subst hji
      exact (hj ▸ hs.moves).eq_answered
    · rw [hs.others j hji, hj]

theorem sound_run (schedule : List ι) : Sound requests schedule (run requests schedule) :=
  (sound_start.steps hrequests schedule).1

end

/-- **One shared carrier for each list of results, under any interleaving**: calls that returned
    have the same carrier exactly when they asked for the same results, for good, and each returns
    with its second step. -/
theorem run_shares (requests : ι → List ValueType) (hrequests : ∀ i, 2 ≤ (requests i).length)
    (schedule : List ι) :
    (∀ i id, (run requests schedule).calls i = .answered id →
      Carrier.forResults (requests i) = .bundle ⟨requests i⟩ ∧
        (run requests schedule).pool.carriers[id]? = some ⟨requests i⟩) ∧
    (∀ i j id id', (run requests schedule).calls i = .answered id →
      (run requests schedule).calls j = .answered id' → (id = id' ↔ requests i = requests j)) ∧
    (∀ later : List ι, (∀ carrier id, (run requests schedule).pool.lookup? carrier = some id →
        (run requests (schedule ++ later)).pool.lookup? carrier = some id ∧
          (run requests (schedule ++ later)).pool.carriers[id]? = some carrier) ∧
      ∀ i id, (run requests schedule).calls i = .answered id →
        (run requests (schedule ++ later)).calls i = .answered id) ∧
    ∀ i, 2 ≤ schedule.count i → ∃ id, (run requests schedule).calls i = .answered id := by
  have h := sound_run hrequests schedule
  refine ⟨fun i id hi => ⟨Carrier.forResults_eq (hrequests i), h.answered i id hi⟩, ?_, ?_, ?_⟩
  · intro i j id id' hi hj
    have hid := h.answered i id hi
    have hid' := h.answered j id' hj
    constructor
    · rintro rfl
      exact congrArg Carrier.fields (Option.some.inj (hid.symm.trans hid'))
    · intro heq
      rw [← heq] at hid'
      obtain ⟨hlt, -⟩ := List.getElem?_eq_some_iff.mp hid
      exact (getElem?_inj hlt h.nodup).mp (hid.trans hid'.symm)
  · intro later
    obtain ⟨hsound, hgrows, hanswers⟩ := h.steps hrequests later
    rw [run_append]
    refine ⟨fun carrier id hid => ?_, hanswers⟩
    have hstays := getElem?_of_grows hgrows (CarrierPool.getElem?_of_lookup? hid)
    exact ⟨CarrierPool.lookup?_of_getElem? hsound.nodup hstays, hstays⟩
  · intro i hcount
    cases hi : (run requests schedule).calls i with
    | asked => exact absurd (h.asked i hi) (by omega)
    | missed => exact absurd (h.missed i hi) (by omega)
    | answered id => exact ⟨id, rfl⟩

def threeRequests : Fin 3 → List ValueType
  | 0 | 1 => [.i32, .i64]
  | 2 => [.i64, .i32]

/-- All three look before any publishes; the first one's carrier is shared. -/
theorem run_shares_race : (∀ i, 2 ≤ (threeRequests i).length) ∧
    (run threeRequests [0, 1, 2, 2, 1, 0]).calls 0 = .answered 1 ∧
    (run threeRequests [0, 1, 2, 2, 1, 0]).calls 1 = .answered 1 ∧
    (run threeRequests [0, 1, 2, 2, 1, 0]).pool.carriers[1]? = some ⟨[.i32, .i64]⟩ := by
  have hrequests : ∀ i, 2 ≤ (threeRequests i).length := by decide
  obtain ⟨hfields, hsame, -, hdone⟩ := run_shares threeRequests hrequests [0, 1, 2, 2, 1, 0]
  have h1 : (run threeRequests [0, 1, 2, 2, 1, 0]).calls 1 = .answered 1 := by decide
  obtain ⟨id, h0⟩ := hdone 0 (by decide)
  obtain rfl := (hsame 0 1 id 1 h0 h1).mpr rfl
  exact ⟨hrequests, h0, h1, (hfields 1 _ h1).2⟩

end Callers

end Wasm
