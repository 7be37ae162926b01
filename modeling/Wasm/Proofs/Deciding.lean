import Wasm.Instantiate

/-! # Deciding how a computation ends

Whether a computation ends with what a decidable property asks for is decided by running it. -/

namespace Wasm

namespace Deciding

variable {ε σ α β : Type}

instance equalExcept [DecidableEq ε] [DecidableEq α] : DecidableEq (Except ε α)
  | .ok a, .ok b => decidable_of_iff (a = b) (by simp)
  | .error d, .error e => decidable_of_iff (d = e) (by simp)
  | .ok _, .error _ | .error _, .ok _ => .isFalse (by simp)

instance existsOk {x : Except ε α} {p : α → Prop} [DecidablePred p] :
    Decidable (∃ a, x = .ok a ∧ p a) :=
  match x with
  | .ok a => decidable_of_iff (p a) ⟨fun h => ⟨a, rfl, h⟩, by rintro ⟨_, ⟨⟩, h⟩; exact h⟩
  | .error _ => .isFalse (by rintro ⟨_, ⟨⟩, -⟩)

instance existsError {x : Except ε α} {p : ε → Prop} [DecidablePred p] :
    Decidable (∃ e, x = .error e ∧ p e) :=
  match x with
  | .ok _ => .isFalse (by rintro ⟨_, ⟨⟩, -⟩)
  | .error e => decidable_of_iff (p e) ⟨fun h => ⟨e, rfl, h⟩, by rintro ⟨_, ⟨⟩, h⟩; exact h⟩

instance existsDone {x : EStateM.Result ε σ α} {p : α → σ → Prop} [∀ a s, Decidable (p a s)] :
    Decidable (∃ a s, x = .ok a s ∧ p a s) :=
  match x with
  | .ok a s => decidable_of_iff (p a s) ⟨fun h => ⟨a, s, rfl, h⟩, by rintro ⟨_, _, ⟨⟩, h⟩; exact h⟩
  | .error _ _ => .isFalse (by rintro ⟨_, _, ⟨⟩, -⟩)

instance existsSome {x : Option α} {p : α → Prop} [DecidablePred p] :
    Decidable (∃ a, x = some a ∧ p a) :=
  match x with
  | some a => decidable_of_iff (p a) ⟨fun h => ⟨a, rfl, h⟩, by rintro ⟨_, ⟨⟩, h⟩; exact h⟩
  | none => .isFalse (by rintro ⟨_, ⟨⟩, -⟩)

instance existsPair {x : α × β} {a : α} {p : β → Prop} [DecidableEq α] [DecidablePred p] :
    Decidable (∃ b, x = (a, b) ∧ p b) :=
  decidable_of_iff (x.1 = a ∧ p x.2)
    ⟨fun h => ⟨x.2, Prod.ext h.1 rfl, h.2⟩, by rintro ⟨_, rfl, h⟩; exact ⟨rfl, h⟩⟩

end Deciding

namespace Value

mutual

theorem eq_of_same : ∀ {v w : Value}, same v w = true → v = w
  | i32 _, i32 _, h | i64 _, i64 _, h | f32 _, f32 _, h | f64 _, f64 _, h | funcRef _, funcRef _, h
  | externRef _, externRef _, h => congrArg _ (eq_of_beq h)
  | bundle _, bundle _, h => congrArg _ (eq_of_sameList h)

theorem eq_of_sameList : ∀ {vs ws : List Value}, sameList vs ws = true → vs = ws
  | [], [], _ => rfl
  | _ :: _, _ :: _, h =>
    have h := Bool.and_eq_true_iff.mp h
    congr (congrArg _ (eq_of_same h.1)) (eq_of_sameList h.2)

end

mutual

theorem same_self : ∀ v : Value, same v v = true
  | i32 _ | i64 _ | f32 _ | f64 _ | funcRef _ | externRef _ => BEq.rfl
  | bundle vs => sameList_self vs

theorem sameList_self : ∀ vs : List Value, sameList vs vs = true
  | [] => rfl
  | v :: vs => Bool.and_eq_true_iff.mpr ⟨same_self v, sameList_self vs⟩

end

instance : DecidableEq Value := fun v w =>
  decidable_of_iff (same v w = true) ⟨eq_of_same, fun h => h ▸ same_self v⟩

end Value

deriving instance DecidableEq for Instantiation, Outcome

end Wasm
