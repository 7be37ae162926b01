import Wasm.Proofs.Validation.Faults

/-! # Bytes at another place

`Decode.Relocates R shift S x y`: `y` does `shift` further on what `x` does. -/

namespace Wasm

variable {R : Nat → Nat → Prop} {shift at_ : Nat} {fault : Fault} {P : Prop}

variable {offset offset' : Nat}

namespace Cursor

/-- The same bytes are left, `shift` further on. -/
structure Relocated (R : Nat → Nat → Prop) (shift : Nat) (c c' : Cursor) : Prop where
  left : c'.left = c.left
  position : c'.position = c.position + shift
  offsets : ∀ offset, c.position ≤ offset → offset ≤ c.position + c.remaining →
    R offset (offset + shift)

theorem endError_eq (c : Cursor) : c.endError = ⟨.unexpectedEnd, c.position + c.remaining⟩ := by
  have := c.pos_le
  rw [endError, position, remaining]
  congr 1
  omega

namespace Relocated

variable {c c' c1 : Cursor} {bs : List UInt8}

variable (h : c.Relocated R shift c')
include h

theorem remaining : c'.remaining = c.remaining := by
  rw [← c'.length_left, h.left, c.length_left]

theorem here : R c.position c'.position := by
  rw [h.position]
  exact h.offsets _ (Nat.le_refl _) (Nat.le_add_right _ _)

theorem exists_over (ho : c.Over bs c1) : ∃ c1', c'.Over bs c1' ∧ c1.Relocated R shift c1' := by
  obtain ⟨c1', ho', hleft⟩ := Cursor.exists_over (h.left.trans ho.left)
  have hpos := ho.position_eq
  have hrem := ho.remaining_eq
  refine ⟨c1', ho', hleft, ?_, fun offset hle hlt => h.offsets offset (by omega) (by omega)⟩
  rw [ho'.position_eq, h.position, hpos]
  omega

theorem endOffset : R c.endError.offset c'.endError.offset := by
  rw [c.endError_eq, c'.endError_eq, h.position, h.remaining]
  show R (c.position + c.remaining) (c.position + shift + c.remaining)
  rw [Nat.add_right_comm]
  exact h.offsets _ (Nat.le_add_right _ _) (Nat.le_refl _)

end Relocated

end Cursor

/-- The same fault of the binary at a related offset. -/
structure CompileError.Relocated (R : Nat → Nat → Prop) (e e' : CompileError) : Prop where
  fault : e'.fault = e.fault
  offset : R e.offset e'.offset
  ofBinary : e.fault.isOfBinary = true

namespace Decode

variable {α β γ δ : Type}

/-- Related values at related cursors, or one fault. -/
inductive Outcome (R : Nat → Nat → Prop) (C : Cursor → Cursor → Prop) (S : α → β → Prop) :
    EStateM.Result CompileError Cursor α → EStateM.Result CompileError Cursor β → Prop
  | ok {a b c c'} (hab : S a b) (hc : C c c') : Outcome R C S (.ok a c) (.ok b c')
  | error {e e' c c'} (he : e.Relocated R e') : Outcome R C S (.error e c) (.error e' c')

namespace Outcome

variable {C C' : Cursor → Cursor → Prop} {S : α → β → Prop}

theorem elim {r : EStateM.Result CompileError Cursor α} {r' : EStateM.Result CompileError Cursor β}
    (h : Outcome R C S r r') :
    (∃ a b c c', r = .ok a c ∧ r' = .ok b c' ∧ S a b ∧ C c c') ∨
      ∃ e e' c c', r = .error e c ∧ r' = .error e' c' ∧ e.Relocated R e' := by
  cases h with
  | ok hab hc => exact .inl ⟨_, _, _, _, rfl, rfl, hab, hc⟩
  | error he => exact .inr ⟨_, _, _, _, rfl, rfl, he⟩

theorem bind {T : γ → δ → Prop} {x : Decode α} {y : Decode β} {f : α → Decode γ} {g : β → Decode δ}
    {c c' : Cursor} (h : Outcome R C S (x c) (y c'))
    (hf : ∀ a b c1 c1', x c = .ok a c1 → S a b → C c1 c1' → Outcome R C' T (f a c1) (g b c1')) :
    Outcome R C' T ((x >>= f) c) ((y >>= g) c') := by
  obtain ⟨a, b, c1, c1', hx, hy, hab, hc1⟩ | ⟨e, e', c1, c1', hx, hy, he⟩ := h.elim
  · rw [bind_of_ok hx, bind_of_ok hy]
    exact hf a b c1 c1' hx hab hc1
  · rw [bind_of_error hx, bind_of_error hy]
    exact .error he

end Outcome

def Relocates (R : Nat → Nat → Prop) (shift : Nat) (S : α → β → Prop) (x : Decode α)
    (y : Decode β) : Prop :=
  ∀ c c', c.Relocated R shift c' → Outcome R (Cursor.Relocated R shift) S (x c) (y c')

abbrev Portable (R : Nat → Nat → Prop) (shift : Nat) (x : Decode α) : Prop :=
  Relocates R shift Eq x x

namespace Relocates

variable {S : α → β → Prop} {T : γ → δ → Prop}

theorem pure {a : α} {b : β} (h : S a b) : Relocates R shift S (Pure.pure a) (Pure.pure b) :=
  fun _ _ hc => .ok h hc

theorem fail (hf : fault.isOfBinary = true) (h : R offset offset') :
    Relocates R shift S (Decode.fail fault offset) (Decode.fail fault offset') :=
  fun _ _ _ => .error ⟨rfl, h, hf⟩

theorem bind {x : Decode α} {y : Decode β} {f : α → Decode γ} {g : β → Decode δ}
    (h : Relocates R shift S x y) (hf : ∀ a b, S a b → Relocates R shift T (f a) (g b)) :
    Relocates R shift T (x >>= f) (y >>= g) :=
  fun c c' hc => (h c c' hc).bind fun a b c1 c1' _ hab hc1 => hf a b hab c1 c1' hc1

theorem andThen {x y : Decode α} {f : α → Decode γ} {g : α → Decode δ}
    (h : Relocates R shift Eq x y) (hf : ∀ a, Relocates R shift T (f a) (g a)) :
    Relocates R shift T (x >>= f) (y >>= g) :=
  h.bind fun a _ hab => hab ▸ hf a

theorem map {x y : Decode α} (h : Relocates R shift Eq x y) (f : α → γ) :
    Relocates R shift Eq (do return f (← x)) (do return f (← y)) :=
  h.andThen fun _ => .pure rfl

theorem position {f : Nat → Decode γ} {g : Nat → Decode δ}
    (hf : ∀ at_, R at_ (at_ + shift) → Relocates R shift T (f at_) (g (at_ + shift))) :
    Relocates R shift T (Decode.position >>= f) (Decode.position >>= g) := by
  intro c c' hc
  have hp : Decode.position c = .ok c.position c := rfl
  have hp' : Decode.position c' = .ok (c.position + shift) c' := by
    rw [← hc.position]
    rfl
  rw [bind_of_ok hp, bind_of_ok hp']
  exact hf _ (hc.position ▸ hc.here) _ _ hc

theorem isEmpty : Portable R shift Decode.isEmpty := by
  intro c c' hc
  have hempty : c.isEmpty = c'.isEmpty := by
    rw [Bool.eq_iff_iff, c.isEmpty_iff, c'.isEmpty_iff, hc.left]
  exact .ok hempty hc

theorem get {f : Cursor → Decode γ} {g : Cursor → Decode δ}
    (hf : ∀ c c' : Cursor, c.Relocated R shift c' → Relocates R shift T (f c) (g c')) :
    Relocates R shift T (MonadState.get >>= f) (MonadState.get >>= g) :=
  fun c c' hc => hf c c' hc c c' hc

theorem ite {Q : Prop} [Decidable P] [Decidable Q] {x x' : Decode α} {y y' : Decode β}
    (hPQ : P ↔ Q) (h : Relocates R shift S x y) (h' : Relocates R shift S x' y') :
    Relocates R shift S (if P then x else x') (if Q then y else y') := by
  by_cases hp : P
  · rw [if_pos hp, if_pos (hPQ.mp hp)]
    exact h
  · rw [if_neg hp, if_neg fun hq => hp (hPQ.mpr hq)]
    exact h'

theorem guard [Decidable P] {x : Decode γ} {y : Decode δ} (hf : fault.isOfBinary = true)
    (hR : R offset offset') (h : Relocates R shift T x y) :
    Relocates R shift T (if P then (Decode.fail fault offset : Decode Unit) >>= fun _ => x else x)
      (if P then (Decode.fail fault offset' : Decode Unit) >>= fun _ => y else y) :=
  .ite .rfl (fun _ _ _ => .error ⟨rfl, hR, hf⟩) h

theorem charge {x : Except Fault α} {y : Except Fault β} (hR : R offset offset')
    (h : (∃ a b, x = .ok a ∧ y = .ok b ∧ S a b) ∨
      ∃ fault, x = .error fault ∧ y = .error fault ∧ fault.isOfBinary = true) :
    Relocates R shift (fun a b => x = .ok a ∧ S a b) (Decode.charge offset x)
      (Decode.charge offset' y) := by
  obtain ⟨a, b, rfl, rfl, hab⟩ | ⟨fault, rfl, rfl, hf⟩ := h
  · exact .pure ⟨rfl, hab⟩
  · exact .fail hf hR

theorem check {x : Except Fault α} (h : Rejects x) (hR : R offset offset') :
    Relocates R shift Eq (Decode.charge offset x) (Decode.charge offset' x) := by
  cases x with
  | ok a => exact .pure rfl
  | error fault => exact .fail (h fault rfl) hR

theorem of_reads {x : Decode α} {G : List UInt8 → α → Prop} (h : Reads x G)
    (hend : ∀ c e c', x c = .error e c' → e = c.endError) : Portable R shift x := by
  intro c c' hc
  cases hx : x c with
  | ok a c1 =>
    obtain ⟨bs, hg, ho⟩ := (h _ _ _).mp hx
    obtain ⟨c1', ho', hc1⟩ := hc.exists_over ho
    rw [(h _ _ _).mpr ⟨bs, hg, ho'⟩]
    exact .ok rfl hc1
  | error e c1 =>
    cases hy : x c' with
    | ok a c1' =>
      -- the same bytes are left at the first place
      obtain ⟨bs, hg, ho'⟩ := (h _ _ _).mp hy
      obtain ⟨c2, ho, -⟩ := Cursor.exists_over (hc.left.symm.trans ho'.left)
      rw [(h _ _ _).mpr ⟨bs, hg, ho⟩] at hx
      cases hx
    | error e' c1' =>
      rw [hend _ _ _ hx, hend _ _ _ hy]
      exact .error ⟨rfl, hc.endOffset, rfl⟩

theorem byte : Portable R shift Decode.byte := by
  refine of_reads Reads.byte fun c e c' h => ?_
  unfold Decode.byte at h
  split at h
  · cases h
  · cases h
    rfl

theorem bytes (n : Nat) : Portable R shift (Decode.bytes n) := by
  refine of_reads (Reads.bytes n) fun c e c' h => ?_
  unfold Decode.bytes at h
  split at h
  · cases h
  · cases h
    rfl

theorem fold {x : α → Decode α} {y : β → Decode β}
    (h : ∀ a b, S a b → Relocates R shift S (x a) (y b)) (n : Nat) {a : α} {b : β} (hab : S a b) :
    Relocates R shift S (Decode.fold x n a) (Decode.fold y n b) := by
  induction n generalizing a b with
  | zero => exact .pure hab
  | succ n ih => exact (h a b hab).bind fun _ _ hab' => ih hab'

theorem many {x : Decode α} (h : Portable R shift x) (n : Nat) :
    Portable R shift (Decode.many n x) := by
  refine map (fold (fun acc acc' hacc => ?_) n rfl) List.reverse
  subst hacc
  exact h.map (· :: acc)

/-! ## Numbers, names and types -/

theorem unsignedGroups (following bits : Nat) :
    Portable R shift (Decode.unsignedGroups following bits) := by
  induction following generalizing bits with
  | zero =>
    exact position fun _ hR => byte.andThen fun _ => ite .rfl (.pure rfl) (.fail rfl hR)
  | succ following ih =>
    exact byte.andThen fun _ => ite .rfl (.pure rfl) ((ih _).map _)

theorem signedGroups (following bits : Nat) :
    Portable R shift (Decode.signedGroups following bits) := by
  induction following generalizing bits with
  | zero =>
    exact position fun _ hR => byte.andThen fun _ => ite .rfl (.pure rfl) (.fail rfl hR)
  | succ following ih =>
    exact byte.andThen fun _ => ite .rfl (.pure rfl) ((ih _).map _)

theorem u32 : Portable R shift Decode.u32 := Decode.u32_eq ▸ unsignedGroups _ _

theorem s32 : Portable R shift Decode.s32 := Decode.s32_eq ▸ signedGroups _ _

theorem s33 : Portable R shift Decode.s33 := Decode.s33_eq ▸ signedGroups _ _

theorem s64 : Portable R shift Decode.s64 := Decode.s64_eq ▸ signedGroups _ _

theorem f32 : Portable R shift Decode.f32 := (bytes 4).map _

theorem f64 : Portable R shift Decode.f64 := (bytes 8).map _

theorem name : Portable R shift Decode.name := by
  refine u32.andThen fun n => position fun start hR => (bytes n).andThen fun contents => ?_
  cases String.fromUTF8? contents with
  | some text => exact .pure rfl
  | none => exact .fail rfl hR

theorem valueType : Portable R shift Decode.valueType := by
  refine position fun at_ hR => byte.andThen fun code => ?_
  cases ValueType.ofCode? code with
  | some type => exact .pure rfl
  | none => exact .fail rfl hR

theorem refType : Portable R shift Decode.refType := by
  refine position fun at_ hR => byte.andThen fun code => ?_
  cases ValueType.ofCode? code with
  | some type => exact ite .rfl (.pure rfl) (.fail rfl hR)
  | none => exact .fail rfl hR

theorem limits : Portable R shift Decode.limits :=
  position fun _ hR => byte.andThen fun _ => u32.andThen fun _ => ite .rfl (.pure rfl)
    (ite .rfl (u32.andThen fun _ => ite .rfl (.pure rfl) (.fail rfl hR)) (.fail rfl hR))

theorem blockType : Portable R shift Decode.blockType := by
  refine position fun at_ hR => s33.andThen fun raw => position fun after _ => ?_
  have hlong : after - at_ ≠ 1 ↔ after + shift - (at_ + shift) ≠ 1 := by omega
  refine ite .rfl (.pure rfl) (ite hlong (.fail rfl hR) (ite .rfl (.pure rfl) ?_))
  cases ValueType.ofCode? _ with
  | some type => exact .pure rfl
  | none => exact .fail rfl hR

theorem valueTypes : Portable R shift Decode.valueTypes :=
  u32.andThen fun n => valueType.many n

/-! ## Instructions -/

theorem memArg : Portable R shift Decode.memArg :=
  u32.andThen fun _ => ite .rfl (u32.andThen fun _ => u32.map _) (u32.map _)

theorem indices (f : Nat → Nat → α) :
    Portable R shift (do return f (← Decode.u32) (← Decode.u32)) :=
  u32.andThen fun _ => u32.map _

theorem prefixed (code : UInt8) (hR : R at_ (at_ + shift)) :
    Relocates R shift Eq (Decode.prefixed at_ code) (Decode.prefixed (at_ + shift) code) := by
  refine u32.andThen fun sub => ?_
  cases Decode.clampingConversions[sub]? with
  | some op => exact .pure rfl
  | none =>
    dsimp only
    split
    any_goals first | exact u32.map _ | exact indices _
    exact .fail rfl hR

theorem selectType (hR : R at_ (at_ + shift)) :
    Relocates R shift Eq (Decode.selectType at_) (Decode.selectType (at_ + shift)) :=
  u32.andThen fun _ => ite .rfl valueType (.fail rfl hR)

theorem instr : Portable R shift Decode.instr := by
  refine position fun at_ hR => byte.andThen fun code => ?_
  generalize code.toNat = n
  split
  any_goals first | exact .pure rfl | exact u32.map _ | exact blockType.map _
  · exact u32.andThen fun n => (u32.many n).andThen fun _ => u32.map _
  · exact indices _
  · exact (selectType hR).map _
  · exact s32.map _
  · exact s64.map _
  · exact f32.map _
  · exact f64.map _
  · exact refType.map _
  · exact prefixed code hR
  · cases entry? loads 0x28 n with
    | some access => exact memArg.map _
    | none =>
      cases entry? stores 0x36 n with
      | some access => exact memArg.map _
      | none =>
        cases entry? numerics 0x45 n with
        | some numeric => exact .pure rfl
        | none => exact .fail rfl hR

end Relocates

end Decode

end Wasm
