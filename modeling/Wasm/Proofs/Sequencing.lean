/-! # Taking sequenced computations apart

A sequence succeeds exactly when each of its steps does.  Only here is it unfolded. -/

namespace Wasm

variable {ε σ α β : Type}

/-- The state that a computation leaves, also in failing. -/
def stateAfter (x : EStateM ε σ α) (s : σ) : σ :=
  match x s with
  | .ok _ s' => s'
  | .error _ s' => s'

theorem bind_eq_ok {x : EStateM ε σ α} {f : α → EStateM ε σ β} {s s' : σ} {b : β} :
    (x >>= f) s = .ok b s' ↔ ∃ a s1, x s = .ok a s1 ∧ f a s1 = .ok b s' := by
  show EStateM.bind x f s = _ ↔ _
  unfold EStateM.bind
  constructor
  · intro h
    cases hx : x s with
    | ok a s1 => rw [hx] at h; exact ⟨a, s1, rfl, h⟩
    | error e s1 => rw [hx] at h; cases h
  · rintro ⟨a, s1, hx, hf⟩
    rw [hx]
    exact hf

theorem bind_eq_error {x : EStateM ε σ α} {f : α → EStateM ε σ β} {s s' : σ} {e : ε} :
    (x >>= f) s = .error e s' ↔
      x s = .error e s' ∨ ∃ a s1, x s = .ok a s1 ∧ f a s1 = .error e s' := by
  show EStateM.bind x f s = _ ↔ _
  unfold EStateM.bind
  cases hx : x s with
  | ok a s1 =>
    constructor
    · intro h; exact .inr ⟨a, s1, rfl, h⟩
    · rintro (h | ⟨a', s1', h, hf⟩)
      · cases h
      · cases h; exact hf
  | error e' s1 =>
    constructor
    · intro h; cases h; exact .inl rfl
    · rintro (h | ⟨a', s1', h, hf⟩)
      · cases h; rfl
      · cases h

theorem bind_of_ok {x : EStateM ε σ α} {f : α → EStateM ε σ β} {s s1 : σ} {a : α}
    (h : x s = .ok a s1) : (x >>= f) s = f a s1 := by
  show EStateM.bind x f s = _
  unfold EStateM.bind
  rw [h]

theorem bind_of_error {x : EStateM ε σ α} {f : α → EStateM ε σ β} {s s1 : σ} {e : ε}
    (h : x s = .error e s1) : (x >>= f) s = .error e s1 := by
  show EStateM.bind x f s = _
  unfold EStateM.bind
  rw [h]

theorem bind_congr_apply {x y : EStateM ε σ α} {f : α → EStateM ε σ β} {s : σ} (h : x s = y s) :
    (x >>= f) s = (y >>= f) s := by
  show EStateM.bind x f s = EStateM.bind y f s
  unfold EStateM.bind
  rw [h]

@[simp] theorem pure_apply (a : α) (s : σ) : (pure a : EStateM ε σ α) s = .ok a s := rfl

@[simp] theorem get_apply (s : σ) : (get : EStateM ε σ σ) s = .ok s s := rfl

theorem except_bind_eq_ok {x : Except ε α} {f : α → Except ε β} {b : β} :
    (x >>= f) = .ok b ↔ ∃ a, x = .ok a ∧ f a = .ok b := by
  cases x with
  | ok a =>
    constructor
    · intro h; exact ⟨a, rfl, h⟩
    · rintro ⟨a', h, hf⟩; cases h; exact hf
  | error e =>
    constructor
    · intro h; cases h
    · rintro ⟨a', h, -⟩; cases h

/-! ## What a computation keeps -/

def Keeps (R : σ → σ → Prop) (x : EStateM ε σ α) : Prop :=
  ∀ s, match x s with
    | .ok _ s' => R s s'
    | .error _ s' => R s s'

namespace Keeps

variable {R : σ → σ → Prop}

theorem ok {x : EStateM ε σ α} (h : Keeps R x) {s s' : σ} {a : α} (hx : x s = .ok a s') :
    R s s' := by
  have := h s
  rwa [hx] at this

theorem error {x : EStateM ε σ α} (h : Keeps R x) {s s' : σ} {e : ε} (hx : x s = .error e s') :
    R s s' := by
  have := h s
  rwa [hx] at this

theorem ite {P : Prop} [Decidable P] {x y : EStateM ε σ α} (hx : Keeps R x) (hy : Keeps R y) :
    Keeps R (if P then x else y) := by
  split
  · exact hx
  · exact hy

theorem changing {f : σ → σ} (h : ∀ s, R s (f s)) : Keeps R (modify f : EStateM ε σ PUnit) :=
  fun s => h s

theorem after [Trans R R R] {x : EStateM ε σ α} (h : Keeps R x) {s0 s : σ} (h0 : R s0 s) :
    match x s with
    | .ok _ s' => R s0 s'
    | .error _ s' => R s0 s' := by
  cases hx : x s with
  | ok a s' =>
    show R s0 s'
    exact Trans.trans h0 (h.ok hx)
  | error e s' =>
    show R s0 s'
    exact Trans.trans h0 (h.error hx)

theorem bind [Trans R R R] {x : EStateM ε σ α} {f : α → EStateM ε σ β} (hx : Keeps R x)
    (hf : ∀ a, Keeps R (f a)) : Keeps R (x >>= f) := by
  intro s
  cases hr : x s with
  | ok a s1 =>
    rw [bind_of_ok hr]
    exact (hf a).after (hx.ok hr)
  | error e s1 =>
    rw [bind_of_error hr]
    exact hx.error hr

variable [Std.Refl R]

theorem pure (a : α) : Keeps R (Pure.pure a : EStateM ε σ α) := fun s => Std.Refl.refl s

theorem throw (e : ε) : Keeps R (MonadExcept.throw e : EStateM ε σ α) := fun s => Std.Refl.refl s

theorem get : Keeps R (MonadState.get : EStateM ε σ σ) := fun s => Std.Refl.refl s

end Keeps

/-! ## Computations in lockstep -/

variable {ε' σ' γ δ : Type}

/-- Two computations ended in the same way. -/
inductive EndsAlike (E : ε → ε' → Prop) (T : σ → σ' → Prop) (Q : α → β → Prop) :
    EStateM.Result ε σ α → EStateM.Result ε' σ' β → Prop
  | ok {a b s s'} (hq : Q a b) (ht : T s s') : EndsAlike E T Q (.ok a s) (.ok b s')
  | error {e e' s s'} (he : E e e') (ht : T s s') : EndsAlike E T Q (.error e s) (.error e' s')

namespace EndsAlike

variable {E : ε → ε' → Prop} {T T' : σ → σ' → Prop} {Q : α → β → Prop} {P : γ → δ → Prop}

theorem imp {r : EStateM.Result ε σ α} {r' : EStateM.Result ε' σ' β} (h : EndsAlike E T Q r r')
    (hT : ∀ {s s'}, T s s' → T' s s') : EndsAlike E T' Q r r' := by
  cases h with
  | ok hq ht => exact .ok hq (hT ht)
  | error he ht => exact .error he (hT ht)

theorem bind {x : EStateM ε σ α} {y : EStateM ε' σ' β} {f : α → EStateM ε σ γ}
    {g : β → EStateM ε' σ' δ} {s : σ} {s' : σ'} (h : EndsAlike E T Q (x s) (y s'))
    (hT : ∀ {s s'}, T s s' → T' s s')
    (hf : ∀ a b s1 s1', x s = .ok a s1 → Q a b → T s1 s1' → EndsAlike E T' P (f a s1) (g b s1')) :
    EndsAlike E T' P ((x >>= f) s) ((y >>= g) s') := by
  generalize hx : x s = r at h
  generalize hy : y s' = r' at h
  cases h with
  | ok hq ht =>
    rw [bind_of_ok hx, bind_of_ok hy]
    exact hf _ _ _ _ hx hq ht
  | error he ht =>
    rw [bind_of_error hx, bind_of_error hy]
    exact .error he (hT ht)

end EndsAlike

def Lockstep (E : ε → ε' → Prop) (T : σ → σ' → Prop) (Q : α → β → Prop) (x : EStateM ε σ α)
    (y : EStateM ε' σ' β) : Prop :=
  ∀ s s', T s s' → EndsAlike E T Q (x s) (y s')

namespace Lockstep

variable {E : ε → ε' → Prop} {T : σ → σ' → Prop} {Q : α → β → Prop} {P : γ → δ → Prop}

theorem pure {a : α} {b : β} (h : Q a b) :
    Lockstep E T Q (Pure.pure a : EStateM ε σ α) (Pure.pure b) := fun _ _ hT => .ok h hT

theorem throw {e : ε} {e' : ε'} (h : E e e') :
    Lockstep E T Q (MonadExcept.throw e : EStateM ε σ α) (MonadExcept.throw e') :=
  fun _ _ hT => .error h hT

theorem get : Lockstep E T T (MonadState.get : EStateM ε σ σ) MonadState.get :=
  fun _ _ hT => .ok hT hT

theorem changing {f : σ → σ} {g : σ' → σ'} (h : ∀ s s', T s s' → T (f s) (g s')) :
    Lockstep E T (fun _ _ => True) (modify f : EStateM ε σ PUnit) (modify g) :=
  fun s s' hT => .ok trivial (h s s' hT)

theorem bind {x : EStateM ε σ α} {y : EStateM ε' σ' β} {f : α → EStateM ε σ γ}
    {g : β → EStateM ε' σ' δ} (hxy : Lockstep E T Q x y)
    (hfg : ∀ a b, Q a b → Lockstep E T P (f a) (g b)) : Lockstep E T P (x >>= f) (y >>= g) :=
  fun s s' hT => (hxy s s' hT).bind id fun a b s1 s1' _ hq ht => hfg a b hq s1 s1' ht

theorem ite {p p' : Prop} [Decidable p] [Decidable p'] (hp : p ↔ p') {x x' : EStateM ε σ α}
    {y y' : EStateM ε' σ' β} (h : Lockstep E T Q x y) (h' : Lockstep E T Q x' y') :
    Lockstep E T Q (if p then x else x') (if p' then y else y') := by
  by_cases hc : p
  · rw [if_pos hc, if_pos (hp.mp hc)]
    exact h
  · rw [if_neg hc, if_neg (fun hc' => hc (hp.mpr hc'))]
    exact h'

end Lockstep

end Wasm
