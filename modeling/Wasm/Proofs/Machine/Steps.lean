import Wasm.Machine.Run
import Wasm.Proofs.Sequencing

/-! # Counted steps of the machine

A run with fuel is told by `Machine.Takes` and `Machine.Lasts` (`Machine.run_eq_iff`). -/

namespace Wasm.Machine

/-- That many steps lead to another result. -/
inductive Takes : Nat → StepResult → StepResult → Prop
  | zero {r} : Takes 0 r r
  | succ {n s m r} (h : Takes n (step s m) r) : Takes (n + 1) (.next s m) r

/-- Some number of steps leads to another result. -/
def Leads (r r' : StepResult) : Prop := ∃ n, Takes n r r'

def Lasts : Nat → StepResult → Prop
  | 0, _ => True
  | n + 1, .next s m => Lasts n (step s m)
  | _ + 1, .done _ _ => False

variable {r r' r'' : StepResult} {m n : Nat}

theorem Takes.trans (h : Takes m r r') (h' : Takes n r' r'') : Takes (m + n) r r'' := by
  induction h with
  | zero => rwa [Nat.zero_add]
  | @succ m _ _ _ _ ih =>
    rw [Nat.add_right_comm m 1 n]
    exact .succ (ih h')

theorem Leads.refl (r : StepResult) : Leads r r := ⟨0, .zero⟩

theorem Leads.trans (h : Leads r r') (h' : Leads r' r'') : Leads r r'' := by
  obtain ⟨m, hm⟩ := h
  obtain ⟨n, hn⟩ := h'
  exact ⟨m + n, hm.trans hn⟩

variable {mc : Machine} {o : Outcome} {s s' : Store}

theorem Leads.step (h : step s mc = r) : Leads (.next s mc) r :=
  ⟨1, .succ (h ▸ .zero)⟩

/-- At least one step leads to another result. -/
def LeadsOn (r r' : StepResult) : Prop := ∃ n, Takes (n + 1) r r'

theorem LeadsOn.leads (h : LeadsOn r r') : Leads r r' := by
  obtain ⟨n, hn⟩ := h
  exact ⟨n + 1, hn⟩

theorem Leads.trans_on (h : Leads r r') (h' : LeadsOn r' r'') : LeadsOn r r'' := by
  obtain ⟨m, hm⟩ := h
  obtain ⟨n, hn⟩ := h'
  exact ⟨m + n, hm.trans hn⟩

theorem LeadsOn.trans (h : LeadsOn r r') (h' : Leads r' r'') : LeadsOn r r'' := by
  obtain ⟨m, hm⟩ := h
  obtain ⟨n, hn⟩ := h'
  exact ⟨m + n, Nat.add_right_comm m 1 n ▸ hm.trans hn⟩

theorem LeadsOn.step (h : Leads (step s mc) r) : LeadsOn (.next s mc) r := by
  obtain ⟨n, hn⟩ := h
  exact ⟨n, .succ hn⟩

/-! ## Lasting -/

theorem Lasts.mono (h : Lasts n r) (hle : m ≤ n) : Lasts m r := by
  induction m generalizing n r with
  | zero => trivial
  | succ m ih =>
    cases n with
    | zero => exact absurd hle (Nat.not_succ_le_zero m)
    | succ n =>
      cases r with
      | next s mc => exact ih (n := n) h (Nat.le_of_succ_le_succ hle)
      | done s outcome => exact h

theorem Takes.lasts (h : Takes m r r') (h' : Lasts n r') : Lasts (n + m) r := by
  induction h with
  | zero => exact h'
  | succ _ ih => exact ih h'

theorem Leads.lasts (h : Leads r r') (h' : Lasts n r') : Lasts n r := by
  obtain ⟨m, hm⟩ := h
  exact (hm.lasts h').mono (Nat.le_add_right n m)

theorem LeadsOn.lasts (h : LeadsOn r r') (h' : Lasts n r') : Lasts (n + 1) r := by
  obtain ⟨m, hm⟩ := h
  exact (hm.lasts h').mono (by omega)

theorem Lasts.le_of_takes {outcome : Outcome} (h : Lasts n r) (h' : Takes m r (.done s outcome)) :
    n ≤ m := by
  induction n generalizing m r with
  | zero => exact Nat.zero_le m
  | succ n ih =>
    cases h' with
    | zero => exact h.elim
    | succ h'' => exact Nat.succ_le_succ (ih h h'')

/-! ## Runs with fuel -/

theorem Takes.unique {o' : Outcome} (h : Takes m r (.done s o)) (h' : Takes n r (.done s' o')) :
    s = s' ∧ o = o' := by
  induction m generalizing n r with
  | zero =>
    cases h
    cases h'
    exact ⟨rfl, rfl⟩
  | succ m ih =>
    cases h with
    | succ h =>
      cases h' with
      | succ h' => exact ih h h'

theorem run_eq_iff {fuel : Nat} (ho : o ≠ .outOfFuel) :
    run fuel s mc = (o, s') ↔ ∃ n, n ≤ fuel ∧ 0 < n ∧ Takes n (.next s mc) (.done s' o) := by
  induction fuel generalizing s mc with
  | zero =>
    constructor
    · intro h
      exact absurd (congrArg Prod.fst h).symm ho
    · rintro ⟨n, hn, hpos, -⟩
      omega
  | succ fuel ih =>
    rw [run]
    cases hs : step s mc with
    | next s1 m1 =>
      rw [ih]
      constructor
      · rintro ⟨n, hn, -, h⟩
        exact ⟨n + 1, Nat.succ_le_succ hn, Nat.succ_pos n, .succ (hs ▸ h)⟩
      · rintro ⟨n, hn, -, h⟩
        cases h with
        | @succ n _ _ _ h =>
          rw [hs] at h
          refine ⟨n, Nat.le_of_succ_le_succ hn, ?_, h⟩
          cases h
          exact Nat.succ_pos _
    | done s1 o1 =>
      constructor
      · intro h
        cases h
        exact ⟨1, Nat.succ_le_succ (Nat.zero_le _), Nat.one_pos, .succ (hs ▸ .zero)⟩
      · rintro ⟨n, -, -, h⟩
        cases h with
        | succ h =>
          rw [hs] at h
          cases h
          rfl

theorem exists_run_iff (ho : o ≠ .outOfFuel) :
    (∃ fuel, run fuel s mc = (o, s')) ↔ Leads (.next s mc) (.done s' o) := by
  constructor
  · rintro ⟨fuel, h⟩
    obtain ⟨n, -, -, htakes⟩ := (run_eq_iff ho).mp h
    exact ⟨n, htakes⟩
  · rintro ⟨n, htakes⟩
    refine ⟨n, (run_eq_iff ho).mpr ⟨n, Nat.le_refl n, ?_, htakes⟩⟩
    cases htakes
    exact Nat.succ_pos _

end Wasm.Machine
