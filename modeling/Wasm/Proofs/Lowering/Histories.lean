import Wasm.Proofs.Lowering.Link
import Wasm.Module.Body

/-! # Assemblies by their history

A label stands for the operations before its last binding. -/

namespace Wasm

open List

namespace Assembly

/-- A call that fills an assembly. -/
inductive Call where
  | newLabel
  | bind (label : Label)
  | emit (op : Op Label)

/-- The assembly after a call. -/
def Call.apply (asm : Assembly) : Call → Assembly
  | .newLabel => asm.newLabel.2
  | .bind label => asm.bind label
  | .emit op => asm.emit op

def Call.op? : Call → Option (Op Label)
  | .emit op => some op
  | _ => none

/-- Whether a call makes a label. -/
def Call.makes : Call → Bool
  | .newLabel => true
  | _ => false

/-- The operations that calls emit, in order. -/
def emitted (calls : List Call) : List (Op Label) := calls.filterMap Call.op?

/-- How many labels calls make. -/
def made (calls : List Call) : Nat := calls.countP Call.makes

/-- A label was last bound behind that many operations. -/
def BoundAt (calls : List Call) (label : Label) (position : Nat) : Prop :=
  ∃ before after, calls = before ++ .bind label :: after ∧ .bind label ∉ after ∧
    label.id < made before ∧ position = (emitted before).length

/-- Begins a function on an assembly in any state. -/
def begin (prior : Assembly) (funcIndex : Nat) (type : FuncType) (locals : Array LocalSlot) :
    Assembly :=
  { prior with funcIndex, type, locals, code := #[], labels := #[] }

variable {asm : Assembly} {calls : List Call} {call : Call} {label : Label} {position : Nat}

theorem emitted_append (calls calls' : List Call) :
    emitted (calls ++ calls') = emitted calls ++ emitted calls' :=
  filterMap_append

theorem made_append (calls calls' : List Call) :
    made (calls ++ calls') = made calls + made calls' :=
  countP_append

theorem boundAt_snoc_bind : BoundAt (calls ++ [.bind label]) label position ↔
      label.id < made calls ∧ position = (emitted calls).length := by
  constructor
  · rintro ⟨before, after, heq, hlast, hmade, hpos⟩
    obtain rfl | ⟨after, call, rfl⟩ := eq_nil_or_concat after
    · cases append_inj_left' heq rfl
      exact ⟨hmade, hpos⟩
    · rw [concat_eq_append, ← cons_append, ← append_assoc] at heq
      cases append_inj_right' heq rfl
      exact absurd (by simp) hlast
  · rintro ⟨hmade, hpos⟩
    exact ⟨calls, [], rfl, not_mem_nil, hmade, hpos⟩

theorem boundAt_snoc (h : call ≠ .bind label) :
    BoundAt (calls ++ [call]) label position ↔ BoundAt calls label position := by
  constructor
  · rintro ⟨before, after, heq, hlast, hmade, hpos⟩
    obtain rfl | ⟨after, call', rfl⟩ := eq_nil_or_concat after
    · cases append_inj_right' heq rfl
      exact absurd rfl h
    · rw [concat_eq_append, ← cons_append, ← append_assoc] at heq
      refine ⟨before, after, append_inj_left' heq rfl, fun hin => hlast ?_, hmade, hpos⟩
      rw [concat_eq_append]
      exact mem_append_left _ hin
  · rintro ⟨before, after, rfl, hlast, hmade, hpos⟩
    refine ⟨before, after ++ [call], by simp, ?_, hmade, hpos⟩
    rw [mem_append, mem_singleton, not_or]
    exact ⟨hlast, h.symm⟩

/-- What calls leave in an assembly. -/
structure Filled (asm : Assembly) (calls : List Call) : Prop where
  code : asm.code.toList = emitted calls
  size : asm.labels.size = made calls
  bound : ∀ label position,
    asm.labels[label.id]? = some (some position) ↔ BoundAt calls label position

/-- **A call adds what its history says.** -/
theorem Filled.apply (h : Filled asm calls) (call : Call) :
    Filled (call.apply asm) (calls ++ [call]) := by
  cases call with
  | newLabel =>
    refine ⟨?_, ?_, fun label position => ?_⟩
    · rw [emitted_append]
      exact h.code.trans (append_nil _).symm
    · rw [made_append, ← h.size]
      exact Array.size_push _
    · rw [boundAt_snoc (by intro heq; cases heq), ← h.bound]
      show (asm.labels.push none)[label.id]? = _ ↔ _
      rw [Array.getElem?_push]
      split
      · next heq => simp [heq]
      · rfl
  | bind target =>
    refine ⟨?_, ?_, fun label position => ?_⟩
    · rw [emitted_append]
      exact h.code.trans (append_nil _).symm
    · rw [made_append, ← h.size]
      exact Array.size_setIfInBounds
    · show (asm.labels.setIfInBounds target.id (some asm.code.size))[label.id]? = _ ↔ _
      by_cases htarget : target = label
      · subst htarget
        rw [boundAt_snoc_bind, ← h.size, ← h.code, Array.getElem?_setIfInBounds_self]
        split
        · next hlt => simp [hlt, eq_comm]
        · next hge => simp [hge]
      · rw [boundAt_snoc (by simpa using htarget), ← h.bound,
          Array.getElem?_setIfInBounds_ne fun hid => htarget (by rwa [Label.mk.injEq])]
  | emit op =>
    refine ⟨?_, ?_, fun label position => ?_⟩
    · rw [emitted_append, ← h.code]
      exact Array.toList_push
    · rw [made_append, ← h.size]
      rfl
    · rw [boundAt_snoc (by intro heq; cases heq), ← h.bound]
      rfl

theorem Filled.foldl {done : List Call} (h : Filled asm done) (calls : List Call) :
    Filled (calls.foldl Call.apply asm) (done ++ calls) := by
  induction calls generalizing asm done with
  | nil => exact (append_nil done).symm ▸ h
  | cons call calls ih =>
    rw [append_cons]
    exact ih (h.apply call)

theorem filled_begin (prior : Assembly) (funcIndex : Nat) (type : FuncType)
    (locals : Array LocalSlot) : Filled (prior.begin funcIndex type locals) [] := by
  refine ⟨rfl, rfl, fun label position => ⟨fun h => ?_, ?_⟩⟩
  · simp [begin] at h
  · rintro ⟨before, after, heq, -⟩
    simp at heq

theorem foldl_header (calls : List Call) (asm : Assembly) :
    (calls.foldl Call.apply asm).funcIndex = asm.funcIndex ∧
      (calls.foldl Call.apply asm).type = asm.type ∧
        (calls.foldl Call.apply asm).locals = asm.locals := by
  induction calls generalizing asm with
  | nil => exact ⟨rfl, rfl, rfl⟩
  | cons call calls ih => cases call with | _ => exact ih _

end Assembly

theorem Op.relabel_congr {σ τ : Type} {f g : σ → τ} {op : Op σ}
    (h : ∀ target ∈ op.targets, f target = g target) : op.relabel f = op.relabel g := by
  cases op with
  | basic op => rfl
  | jump target | jumpIf target | jumpUnless target =>
    simp only [relabel, h target (mem_singleton_self _)]
  | jumpTable targets default =>
    simp only [Op.targets, mem_append, Array.mem_toList_iff, mem_singleton] at h
    simp only [relabel, h default (.inr rfl), Op.jumpTable.injEq, and_true]
    exact Array.map_congr_left fun target ht => h target (.inl ht)

namespace Assembly

variable {calls : List Call}

variable {asm : Assembly} {label : Label}

theorem Filled.isBound_iff (h : Filled asm calls) :
    IsBound asm.labels label ↔ BoundAt calls label (place asm.labels label) := by
  rw [← h.bound]
  constructor
  · rintro ⟨position, hp⟩
    rwa [place_eq hp]
  · exact fun hp => ⟨_, hp⟩

theorem Filled.place_eq {position : Nat} (h : Filled asm calls)
    (hbound : BoundAt calls label position) : place asm.labels label = position :=
  Assembly.place_eq ((h.bound label position).mpr hbound)

/-- **An assembly links as its history says.** -/
theorem Filled.finish_eq_ok_iff (h : Filled asm calls) {slots : Nat} {func : CompiledFunction} :
    asm.finish slots = .ok func ↔ ∃ place : Label → Nat,
        (∀ op ∈ emitted calls, ∀ label ∈ op.targets, BoundAt calls label (place label)) ∧
          func = ⟨asm.funcIndex, asm.type, asm.locals, slots,
            ((emitted calls).map (Op.relabel place)).toArray⟩ := by
  have hcode : asm.code = (emitted calls).toArray := by rw [← h.code]
  unfold finish
  rw [except_bind_eq_ok]
  constructor
  · rintro ⟨code, hlink, heq⟩
    obtain ⟨hbound, rfl⟩ := link_eq_ok.mp hlink
    cases heq
    refine ⟨place asm.labels, fun op hop label hlabel => ?_, ?_⟩
    · exact h.isBound_iff.mp (hbound op (h.code ▸ hop) label hlabel)
    · rw [hcode, map_toArray]
  · rintro ⟨place', hbound, rfl⟩
    refine ⟨_, link_eq_ok.mpr ⟨fun op hop label hlabel => ?_, rfl⟩, ?_⟩
    · exact ⟨_, (h.bound _ _).mpr (hbound op (h.code ▸ hop) label hlabel)⟩
    · have hsame : (emitted calls).map (Op.relabel (place asm.labels)) =
          (emitted calls).map (Op.relabel place') :=
        map_congr_left fun op hop =>
          Op.relabel_congr fun label hlabel => h.place_eq (hbound op hop label hlabel)
      rw [hcode, map_toArray, hsame]
      rfl

end Assembly

def BodyState.startOn (prior : Assembly) (funcIndex : Nat) (type : FuncType)
    (locals : Array LocalSlot) (nextSlot : Nat) (accessors : Accessors)
    (dataRefs : Array (Nat × Nat)) : BodyState :=
  let (label, asm) := (prior.begin funcIndex type locals).newLabel
  { stack := ⟨[], [⟨.function, [], type.results, label, label, none, false, false, []⟩]⟩
    emission := { asm, accessors, nextSlot, scratch := [] }
    dataRefs }

/-- A body, translated on an assembly in any state. -/
def Decode.bodyOn (prior : Assembly) (ctx : BodyContext) (funcIndex : Nat) (accessors : Accessors)
    (dataRefs : Array (Nat × Nat)) :
    Decode (CompiledFunction × Accessors × Array (Nat × Nat)) := do
  let type ← charge (← position) (ctx.spaces.funcType funcIndex)
  let (locals, nextSlot) ← fold localGroup (← u32) (paramLocals type.params)
  let s := BodyState.startOn prior funcIndex type locals nextSlot accessors dataRefs
  let s ← instructions { ctx with locals } (← get).remaining s
  unless ← isEmpty do fail .trailingBytes (← position)
  let func ← charge 0 (s.emission.asm.finish s.emission.nextSlot)
  return (func, s.emission.accessors, s.dataRefs)

theorem BodyState.startOn_eq (prior : Assembly) : BodyState.startOn prior = BodyState.start := rfl

/-- **Labels are resolved by the history of a function alone**: it finishes exactly when all labels
    that it names were bound, and each becomes the number of operations before its last binding. -/
theorem Assembly.finish_eq_ok_iff_history (prior : Assembly) (index : Nat) (type : FuncType)
    (locals : Array LocalSlot) :
    (∀ (calls : List Call) (slots : Nat) (func : CompiledFunction),
      (calls.foldl Call.apply (prior.begin index type locals)).finish slots = .ok func ↔
        ∃ place : Label → Nat,
          (∀ op ∈ emitted calls, ∀ label ∈ op.targets, BoundAt calls label (place label)) ∧
            func = ⟨index, type, locals, slots, ((emitted calls).map (Op.relabel place)).toArray⟩) ∧
    (∀ ctx accessors dataRefs, Decode.bodyOn prior ctx index accessors dataRefs =
        Decode.body ctx index accessors dataRefs) := by
  refine ⟨fun calls slots func => ?_, fun ctx accessors dataRefs => ?_⟩
  · have hfilled := (filled_begin prior index type locals).foldl calls
    obtain ⟨hindex, htype, hlocals⟩ := foldl_header calls (prior.begin index type locals)
    rw [hfilled.finish_eq_ok_iff, hindex, htype, hlocals]
    rfl
  · unfold Decode.bodyOn Decode.body
    rw [BodyState.startOn_eq]

end Wasm
