import Wasm.Bytecode.Assembly
import Wasm.Proofs.Sequencing

/-! # Linking

Linking succeeds exactly when every label that the code refers to is bound
(`Assembly.link_eq_ok`). -/

namespace Wasm

open List

/-- The operation with each of its jump targets replaced. -/
def Op.relabel {σ τ : Type} (f : σ → τ) : Op σ → Op τ
  | .basic op => .basic op
  | .jump target => .jump (f target)
  | .jumpIf target => .jumpIf (f target)
  | .jumpUnless target => .jumpUnless (f target)
  | .jumpTable targets default => .jumpTable (targets.map f) (f default)

variable {σ τ : Type} {b : BasicOp}

theorem Op.relabel_eq_basic {f : σ → τ} {op : Op σ} : op.relabel f = .basic b ↔ op = .basic b := by
  cases op with
  | basic op => simp [relabel]
  | _ => simp [relabel]

theorem Op.basic_mem_relabel {f : σ → τ} {code : Array (Op σ)}
    (h : .basic b ∈ code.map (Op.relabel f)) : .basic b ∈ code.toList := by
  obtain ⟨op, hop, heq⟩ := Array.mem_map.mp h
  rw [Op.relabel_eq_basic] at heq
  exact heq ▸ hop.val

namespace Assembly

variable {labels : Array (Option Nat)}

def place (labels : Array (Option Nat)) (label : Label) : Nat := labels[label.id]?.join.getD 0

def IsBound (labels : Array (Option Nat)) (label : Label) : Prop :=
  ∃ position, labels[label.id]? = some (some position)

variable {label : Label} {position : Nat} {asm : Assembly}

theorem place_eq (h : labels[label.id]? = some (some position)) :
    place labels label = position := by
  rw [place, h]
  rfl

theorem resolve_eq_ok :
    resolve labels label = .ok position ↔ IsBound labels label ∧ position = place labels label := by
  unfold resolve
  constructor
  · intro h
    split at h
    · next p hp => cases h; exact ⟨⟨_, hp⟩, (place_eq hp).symm⟩
    · cases h
  · rintro ⟨⟨p, hp⟩, rfl⟩
    rw [place_eq hp, hp]

theorem mapM_eq_ok {ε α β : Type} {f : α → Except ε β} {P : α → Prop} {g : α → β}
    (hf : ∀ a b, f a = .ok b ↔ P a ∧ b = g a) {as : List α} {bs : List β} :
    as.mapM f = .ok bs ↔ (∀ a ∈ as, P a) ∧ bs = as.map g := by
  induction as generalizing bs with
  | nil =>
    constructor
    · intro h; cases h; exact ⟨forall_mem_nil _, rfl⟩
    · rintro ⟨-, rfl⟩; rfl
  | cons a as ih =>
    rw [mapM_cons, except_bind_eq_ok, forall_mem_cons, map_cons]
    constructor
    · rintro ⟨b, hb, h⟩
      obtain ⟨bs', hbs, h⟩ := except_bind_eq_ok.mp h
      cases h
      obtain ⟨ha, rfl⟩ := (hf a b).mp hb
      obtain ⟨has, rfl⟩ := ih.mp hbs
      exact ⟨⟨ha, has⟩, rfl⟩
    · rintro ⟨⟨ha, has⟩, rfl⟩
      exact ⟨g a, (hf a _).mpr ⟨ha, rfl⟩, except_bind_eq_ok.mpr ⟨as.map g, ih.mpr ⟨has, rfl⟩, rfl⟩⟩

theorem mapTargets_eq_ok {op : Op Label} {op' : Op Nat} : op.mapTargets (resolve labels) = .ok op' ↔
      (∀ label ∈ op.targets, IsBound labels label) ∧ op' = op.relabel (place labels) := by
  cases op with
  | basic op =>
    constructor
    · intro h; cases h; exact ⟨forall_mem_nil _, rfl⟩
    · rintro ⟨-, rfl⟩; rfl
  | jump target | jumpIf target | jumpUnless target =>
    rw [Op.mapTargets, except_bind_eq_ok, Op.targets, forall_mem_singleton]
    constructor
    · rintro ⟨p, hp, h⟩
      cases h
      obtain ⟨hb, rfl⟩ := resolve_eq_ok.mp hp
      exact ⟨hb, rfl⟩
    · rintro ⟨hb, rfl⟩
      exact ⟨_, resolve_eq_ok.mpr ⟨hb, rfl⟩, rfl⟩
  | jumpTable targets default =>
    rw [Op.mapTargets, except_bind_eq_ok, Op.targets, forall_mem_append, forall_mem_singleton]
    constructor
    · rintro ⟨ps, hps, h⟩
      obtain ⟨p, hp, h⟩ := except_bind_eq_ok.mp h
      cases h
      obtain ⟨hb, rfl⟩ := resolve_eq_ok.mp hp
      obtain ⟨hbs, rfl⟩ := (mapM_eq_ok fun _ _ => resolve_eq_ok).mp hps
      refine ⟨⟨hbs, hb⟩, ?_⟩
      rw [Op.relabel, map_toArray]
    · rintro ⟨⟨hbs, hb⟩, rfl⟩
      refine ⟨_, (mapM_eq_ok fun _ _ => resolve_eq_ok).mpr ⟨hbs, rfl⟩, ?_⟩
      refine except_bind_eq_ok.mpr ⟨_, resolve_eq_ok.mpr ⟨hb, rfl⟩, ?_⟩
      rw [Op.relabel, ← map_toArray]
      rfl

theorem link_eq_ok {code : Array (Op Nat)} : asm.link = .ok code ↔
      (∀ op ∈ asm.code.toList, ∀ label ∈ op.targets, IsBound asm.labels label) ∧
        code = asm.code.map (Op.relabel (place asm.labels)) := by
  unfold link
  rw [except_bind_eq_ok]
  constructor
  · rintro ⟨ops, hops, h⟩
    cases h
    obtain ⟨hb, rfl⟩ := (mapM_eq_ok fun _ _ => mapTargets_eq_ok).mp hops
    exact ⟨hb, by rw [← Array.toList_map, Array.toArray_toList]⟩
  · rintro ⟨hb, rfl⟩
    refine ⟨_, (mapM_eq_ok fun _ _ => mapTargets_eq_ok).mpr ⟨hb, rfl⟩, ?_⟩
    rw [← Array.toList_map, Array.toArray_toList]
    rfl

theorem finish_eq_ok {slots : Nat} {func : CompiledFunction} (h : asm.finish slots = .ok func) :
    func.type = asm.type ∧ func.locals = asm.locals ∧ func.frameSlots = slots ∧
      asm.link = .ok func.code := by
  obtain ⟨code, hlink, h⟩ := except_bind_eq_ok.mp h
  cases h
  exact ⟨rfl, rfl, rfl, hlink⟩

end Assembly

end Wasm
