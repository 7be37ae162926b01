import Wasm.Proofs.Lowering.Building

/-! # Labels of lowered code

Jumps go to labels with a position or of open scopes (`Emission.Settled`). -/

namespace Wasm

open List

namespace Assembly

/-- An assembly comes from another by adding operations, making labels, and binding those listed. -/
inductive Binds (asm : Assembly) : List Label → Assembly → Prop
  | refl : Binds asm [] asm
  | emit {bound asm'} (h : Binds asm bound asm') (op : Op Label) : Binds asm bound (asm'.emit op)
  | newLabel {bound asm'} (h : Binds asm bound asm') : Binds asm bound asm'.newLabel.2
  | bind {bound asm'} (h : Binds asm bound asm') {label : Label}
      (hfree : IsFree asm'.labels label) : Binds asm (label :: bound) (asm'.bind label)

variable {asm : Assembly} {label : Label}

theorem isBound_newLabel : IsBound asm.newLabel.2.labels label ↔ IsBound asm.labels label := by
  show (∃ position, (asm.labels.push none)[label.id]? = _) ↔ _
  rw [Array.getElem?_push]
  constructor
  · rintro ⟨position, hp⟩
    split at hp
    · cases hp
    · exact ⟨position, hp⟩
  · rintro ⟨position, hp⟩
    have hlt := (Array.getElem?_eq_some_iff.mp hp).1
    exact ⟨position, by rw [if_neg (Nat.ne_of_lt hlt), hp]⟩

theorem isBound_bind (hlt : label.id < asm.labels.size) {other : Label} :
    IsBound (asm.bind label).labels other ↔ other = label ∨ IsBound asm.labels other := by
  show (∃ position, (asm.labels.setIfInBounds label.id _)[other.id]? = _) ↔ _
  by_cases heq : other = label
  · subst heq
    rw [Array.getElem?_setIfInBounds_self_of_lt hlt]
    exact ⟨fun _ => .inl rfl, fun _ => ⟨_, rfl⟩⟩
  · have hne : label.id ≠ other.id := fun hid => heq (by cases other; cases label; cases hid; rfl)
    rw [Array.getElem?_setIfInBounds_ne hne]
    exact ⟨.inr, fun h => h.resolve_left heq⟩

namespace Binds

variable {asm asm' asm'' : Assembly} {bound bound' : List Label}

variable {label : Label}

theorem isBound_iff (h : Binds asm bound asm') :
    IsBound asm'.labels label ↔ label ∈ bound ∨ IsBound asm.labels label := by
  induction h with
  | refl => exact ⟨.inr, fun h => h.resolve_left not_mem_nil⟩
  | emit _ op ih => exact ih
  | newLabel _ ih => rw [isBound_newLabel, ih]
  | bind _ hfree ih => rw [isBound_bind hfree.lt, ih, mem_cons, or_assoc]

theorem nodup (h : Binds asm bound asm') : bound.Nodup := by
  induction h with
  | refl => exact .nil
  | emit _ _ ih | newLabel _ ih => exact ih
  | bind h hfree ih =>
    refine nodup_cons.mpr ⟨fun hmem => ?_, ih⟩
    exact hfree.not_isBound (h.isBound_iff.mpr (.inl hmem))

theorem count_eq_one (h : Binds asm bound asm') (hfree : ¬ IsBound asm.labels label)
    (hbound : IsBound asm'.labels label) : bound.count label = 1 := by
  rw [h.nodup.count, if_pos ((h.isBound_iff.mp hbound).resolve_right hfree)]

end Binds

end Assembly

open Assembly (IsBound)

namespace Emission

def Settled (pending : Label → Prop) (e : Emission) : Prop :=
  ∀ op ∈ e.asm.code.toList, ∀ label ∈ op.targets, IsBound e.asm.labels label ∨ pending label

namespace Builds

variable {D : Emission → BasicOp → Prop} {T : Label → Prop} {e e' : Emission} {pend : List Label}

theorem exists_binds (h : Builds D T e pend e') : ∃ bound, e.asm.Binds bound e'.asm := by
  induction h with
  | refl => exact ⟨[], .refl⟩
  | basic _ _ ih | jump _ _ _ ih =>
    obtain ⟨bound, hb⟩ := ih
    exact ⟨bound, hb.emit _⟩
  | newLabel _ ih | spare _ ih =>
    obtain ⟨bound, hb⟩ := ih
    exact ⟨bound, hb.newLabel⟩
  | bind h ih =>
    obtain ⟨bound, hb⟩ := ih
    exact ⟨_, hb.bind (h.pending.2.2 _ (mem_append_right _ mem_cons_self)).2⟩
  | scratchSlot _ type ordinal ih =>
    rw [asm_scratchSlot]
    exact ih
  | intern _ _ ih => exact ih

theorem settled (h : Builds D T e pend e') (hs : e.Settled T) :
    e'.Settled fun l => T l ∨ l ∈ pend := by
  have hemit : ∀ {pend : List Label} {e' : Emission} {op : Op Label},
      e'.Settled (fun l => T l ∨ l ∈ pend) →
      (∀ l ∈ op.targets, IsBound e'.asm.labels l ∨ T l ∨ l ∈ pend) →
      (e'.emit op).Settled fun l => T l ∨ l ∈ pend := by
    intro pend e' op ih ht op' hop
    rw [code_emit, Array.toList_push, mem_append, mem_singleton] at hop
    rcases hop with hop | rfl
    · exact ih op' hop
    · exact ht
  induction h with
  | refl => exact fun op hop l hl => (hs op hop l hl).imp_right .inl
  | basic _ _ ih => exact hemit ih (forall_mem_nil _)
  | jump _ _ ht ih => exact hemit ih ht
  | @newLabel _ e' _ ih =>
    intro op hop l hl
    exact (ih op hop l hl).imp (Extends.refl e').newLabel.isBound (.imp_right (mem_cons_of_mem _))
  | @spare _ e' _ ih =>
    intro op hop l hl
    exact (ih op hop l hl).imp_left (Extends.refl e').newLabel.isBound
  | @bind before label after e' h ih =>
    have hlt := (h.pending.2.2 label (mem_append_right _ mem_cons_self)).2.lt
    intro op hop l hl
    rcases ih op hop l hl with hb | hT | hmem
    · exact .inl ((Assembly.isBound_bind hlt).mpr (.inr hb))
    · exact .inr (.inl hT)
    · rcases mem_cons.mp (perm_middle.mem_iff.mp hmem) with rfl | hmem
      · exact .inl ((Assembly.isBound_bind hlt).mpr (.inl rfl))
      · exact .inr (.inr hmem)
  | scratchSlot _ type ordinal ih =>
    unfold Settled
    rw [asm_scratchSlot]
    exact ih
  | intern _ _ ih => exact ih

theorem exists_link (h : Builds D (fun _ => False) e [] e') (hcode : e.asm.code = #[]) :
    ∃ code, e'.asm.link = .ok code := by
  refine ⟨_, Assembly.link_eq_ok.mpr ⟨fun op hop l hl => ?_, rfl⟩⟩
  refine (h.settled (fun op hop => ?_) op hop l hl).resolve_right ?_
  · rw [hcode] at hop
    cases hop
  · rintro (hl | hl)
    · exact hl
    · cases hl

end Builds

end Emission

/-! ## Scopes -/

def Scope.EndsBefore (sc : Scope) (n : Nat) : Prop :=
  sc.endLabel.id < n ∧ ∀ label, sc.elseLabel = some label → label.id < n

end Wasm
