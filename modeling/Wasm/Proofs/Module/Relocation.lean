import Wasm.Proofs.Binary.Relocation
import Wasm.Proofs.Module.Acceptance

/-! # Sections at another place

Sections are read alike elsewhere, also when bodies are lowered in two ways that stay in step. -/

namespace Wasm

open List

variable {R Q : Nat → Nat → Prop} {shift at_ at' : Nat} {C : Cursor → Cursor → Prop}
  {c c' : Cursor} {s s' : BodyState} {L : CodeRelation} {options options' : CompileOptions}
  {d d' : Draft} {state state' : Nat × Draft}

variable {range range' : Cursor} {refs refs' : Array (Nat × Nat)}

namespace Decode.Relocates

variable {α β : Type} {S : α → β → Prop}

theorem sub (n : Nat) :
    Relocates R shift (Cursor.Relocated R shift) (Decode.sub n) (Decode.sub n) := by
  intro c c' hc
  unfold Decode.sub
  by_cases h : n ≤ c.remaining
  · have h' : n ≤ c'.remaining := hc.remaining ▸ h
    rw [dif_pos h, dif_pos h']
    obtain ⟨c1, ho, hc1⟩ := hc.exists_over (c.over_advance h)
    have ho' := c'.over_advance h'
    rw [hc.left] at ho'
    rw [ho'.unique ho]
    refine .ok ⟨?_, hc.position, fun offset hle hlt => hc.offsets offset hle ?_⟩ hc1
    · rw [Cursor.left_narrow, Cursor.left_narrow, hc.left]
    · have hrange : (c.narrow n h).remaining = n := Nat.add_sub_cancel_left _ _
      have hpos : (c.narrow n h).position = c.position := rfl
      omega
  · rw [dif_neg h, dif_neg fun h' => h (hc.remaining ▸ h')]
    exact .error ⟨rfl, hc.endOffset, rfl⟩

theorem within_outcome {x : Decode α} {y : Decode β} (h : Relocates R shift S x y)
    (hrange : range.Relocated R shift range') (hc : C c c') :
    Outcome R C S (Decode.within range x c) (Decode.within range' y c') := by
  have hxy := h range range' hrange
  unfold Decode.within
  generalize x range = r, y range' = r' at hxy
  cases hxy with
  | ok hab _ => exact .ok hab hc
  | error he => exact .error he

theorem within {x : Decode α} {y : Decode β} (h : Relocates R shift S x y)
    (hrange : range.Relocated R shift range') :
    Relocates R shift S (Decode.within range x) (Decode.within range' y) :=
  fun _ _ hc => h.within_outcome hrange hc

end Decode.Relocates

/-! ## Function bodies -/

def RefsRelocated (R : Nat → Nat → Prop) (refs refs' : Array (Nat × Nat)) : Prop :=
  Forall₂ (fun ref ref' => ref'.1 = ref.1 ∧ R ref.2 ref'.2) refs.toList refs'.toList

theorem RefsRelocated.push (h : RefsRelocated R refs refs') (index : Nat) {offset offset' : Nat}
    (hR : R offset offset') :
    RefsRelocated R (refs.push (index, offset)) (refs'.push (index, offset')) := by
  unfold RefsRelocated
  rw [Array.toList_push, Array.toList_push]
  exact rel_append h (.cons ⟨rfl, hR⟩ .nil)

/-- Two ways of emitting code that stay in step. -/
structure Emission.InStep (ctx ctx' : BodyContext) (E : Emission → Emission → Prop) : Prop where
  check : ∀ (i : Instr) (labels : Nat), i.check ctx' labels = i.check ctx labels
  dataCount : ctx'.dataCount = ctx.dataCount
  labels : ∀ {e e'}, E e e' → e'.asm.labels = e.asm.labels
  emit : ∀ {e e'}, E e e' → ∀ (stack : ControlStack) (i : Instr),
    E (i.emit ctx stack e) (i.emit ctx' stack e')

theorem Emission.InStep.same (ctx : BodyContext) : InStep ctx ctx Eq where
  check _ _ := rfl
  dataCount := rfl
  labels h := h ▸ rfl
  emit h _ _ := h ▸ rfl

/-- The middle of a body at two places. -/
structure BodyState.Relocated (R : Nat → Nat → Prop) (E : Emission → Emission → Prop)
    (s s' : BodyState) : Prop where
  stack : s'.stack = s.stack
  emission : E s.emission s'.emission
  dataRefs : RefsRelocated R s.dataRefs s'.dataRefs

section

variable {E : Emission → Emission → Prop} {ctx ctx' : BodyContext}

theorem BodyState.Relocated.step (hE : Emission.InStep ctx ctx' E) (h : s.Relocated Q E s')
    (hr : s.stack.Ready) (hQ : Q at_ at') (i : Instr) :
    (∃ s1 s1', s.step ctx at_ i = .ok s1 ∧ s'.step ctx' at' i = .ok s1' ∧ s1.Relocated Q E s1') ∨
      ∃ fault, s.step ctx at_ i = .error fault ∧ s'.step ctx' at' i = .error fault ∧
        fault.isOfBinary = true := by
  have hrejects : Rejects (s.step ctx at_ i) := BodyState.step_rejects hr at_ i
  unfold BodyState.step at hrejects ⊢
  rw [h.stack, hE.labels h.emission, hE.check, hE.dataCount]
  cases hcheck : i.check ctx s.emission.asm.labels.size s.stack with
  | error fault stack =>
    rw [hcheck] at hrejects
    exact .inr ⟨fault, rfl, rfl, hrejects fault rfl⟩
  | ok u stack =>
    have hcheck' : i.check ctx' s.emission.asm.labels.size s.stack = .ok () stack :=
      (hE.check i _).symm ▸ hcheck
    simp only [Instr.lower_eq hr hcheck, Instr.lower_eq hr hcheck']
    refine .inl ⟨_, _, rfl, rfl, rfl, hE.emit h.emission _ i, ?_⟩
    cases ctx.dataCount with
    | some count => exact h.dataRefs
    | none =>
      cases i.dataIndex? with
      | none => exact h.dataRefs
      | some data => exact h.dataRefs.push data hQ

namespace Decode

open BodyState (Reached)

theorem relocates_instructions (hQ : ∀ o o', R o o' → Q o o') (hE : Emission.InStep ctx ctx' E)
    {start : BodyState} (hr : start.stack.Ready) (fuel : Nat) (hreached : Reached ctx start s)
    (hopen : s.stack.scopes ≠ []) (h : s.Relocated Q E s') :
    Relocates R shift (fun s s' => s.Relocated Q E s' ∧ Reached ctx start s ∧ s.stack.scopes = [])
      (instructions ctx fuel s) (instructions ctx' fuel s') := by
  induction fuel generalizing s s' with
  | zero =>
    intro c c' hc
    exact .error ⟨rfl, hc.endOffset, rfl⟩
  | succ fuel ih =>
    refine .position fun at_ hR => Relocates.instr.andThen fun i => ?_
    have hs := (hreached.ready_or_closed hr).resolve_right hopen
    refine (Relocates.charge hR (h.step hE hs (hQ _ _ hR) i)).bind fun s1 s1' ⟨hstep, h1⟩ => ?_
    rw [h1.stack]
    split
    · next hnil => exact .pure ⟨h1, hreached.step hopen hstep, List.isEmpty_iff.mp hnil⟩
    · next hne =>
        exact ih (hreached.step hopen hstep) (fun hnil => hne (List.isEmpty_iff.mpr hnil)) h1

theorem relocates_body (hQ : ∀ o o', R o o' → Q o o') {useAccessors : Bool}
    (hE : ∀ locals, Emission.InStep { ctx with locals } { ctx with locals, useAccessors } E)
    (funcIndex : Nat) {accessors accessors' : Accessors}
    (hrefs : RefsRelocated Q refs refs')
    (hstart : ∀ type locals nextSlot,
      E (BodyState.start funcIndex type locals nextSlot accessors refs).emission
        (BodyState.start funcIndex type locals nextSlot accessors' refs').emission)
    {T : CompiledFunction → Accessors → CompiledFunction → Accessors → Prop}
    (hfinish : ∀ {e e' func}, E e e' → e.asm.finish e.nextSlot = .ok func →
      ∃ func', e'.asm.finish e'.nextSlot = .ok func' ∧ T func e.accessors func' e'.accessors) :
    Relocates R shift (fun r r' => T r.1 r.2.1 r'.1 r'.2.1 ∧ RefsRelocated Q r.2.2 r'.2.2)
      (body ctx funcIndex accessors refs)
      (body { ctx with useAccessors } funcIndex accessors' refs') := by
  have hgroup : ∀ state, Portable R shift (localGroup state) :=
    fun state => .position fun at_ hR => Relocates.u32.andThen fun _ =>
      Relocates.valueType.andThen fun _ => .ite .rfl (.pure rfl) (.fail rfl hR)
  refine .position fun at_ hR => (Relocates.check (ctx.spaces.rejects_funcType _) hR).andThen
    fun type => Relocates.u32.andThen fun n => ?_
  refine (Relocates.fold (fun state _ heq => heq ▸ hgroup state) n rfl).andThen fun state => ?_
  obtain ⟨locals, nextSlot⟩ := state
  have hfirst : (BodyState.start funcIndex type locals nextSlot accessors refs).Relocated Q E
      (.start funcIndex type locals nextSlot accessors' refs') :=
    ⟨rfl, hstart type locals nextSlot, hrefs⟩
  refine .get fun c c' hc => ?_
  rw [hc.remaining]
  refine (relocates_instructions hQ (hE locals) BodyState.start_ready _ .refl
    (cons_ne_nil _ _) hfirst).bind fun s s' ⟨hs, hreached, hclosed⟩ =>
      Relocates.isEmpty.andThen fun empty => ?_
  cases empty with
  | false => exact .position fun at_ hR => fun _ _ _ => .error ⟨rfl, hR, rfl⟩
  | true =>
    obtain ⟨code, hlink⟩ := hreached.exists_link hclosed
    have hfunc : ∃ func, s.emission.asm.finish s.emission.nextSlot = .ok func := by
      unfold Assembly.finish
      rw [hlink]
      exact ⟨_, rfl⟩
    obtain ⟨func, hfunc⟩ := hfunc
    obtain ⟨func', hfunc', hT⟩ := hfinish hs.emission hfunc
    rw [hfunc, hfunc']
    exact .pure ⟨hT, hs.dataRefs⟩

end Decode

end

abbrev CodeRelation :=
  Array CompiledFunction → Accessors → Array CompiledFunction → Accessors → Prop

namespace CodeRelation

def same : CodeRelation := fun functions accessors functions' accessors' =>
  functions' = functions ∧ accessors' = accessors

/-- Bodies lowered with the two options keep the relation. -/
structure Respected (L : CodeRelation) (options options' : CompileOptions) : Prop where
  size : ∀ {functions accessors functions' accessors'},
    L functions accessors functions' accessors' →
    functions'.size = functions.size
  body : ∀ {functions accessors functions' accessors'},
    L functions accessors functions' accessors' →
    ∀ (ctx : BodyContext), ctx.useAccessors = options.accessors → ∀ (funcIndex : Nat)
      {R Q : Nat → Nat → Prop} {shift : Nat} {refs refs' : Array (Nat × Nat)},
      (∀ o o', R o o' → Q o o') → RefsRelocated Q refs refs' → Decode.Relocates R shift
        (fun r r' => L (functions.push r.1) r.2.1 (functions'.push r'.1) r'.2.1 ∧
          RefsRelocated Q r.2.2 r'.2.2)
        (Decode.body ctx funcIndex accessors refs)
        (Decode.body { ctx with useAccessors := options'.accessors } funcIndex accessors' refs')

theorem respected_same (options : CompileOptions) : same.Respected options options where
  size := by
    rintro functions accessors _ _ ⟨rfl, rfl⟩
    rfl
  body := by
    rintro functions accessors functions' accessors' ⟨rfl, rfl⟩ ctx hctx funcIndex
    intro R Q shift refs refs' hQ hrefs
    rw [← hctx]
    refine Decode.relocates_body hQ (E := Eq)
      (T := fun f a f' a' => same (functions'.push f) a (functions'.push f') a')
      (fun _ => .same _) funcIndex hrefs (fun _ _ _ => rfl) ?_
    rintro e _ func rfl hfunc
    exact ⟨func, hfunc, rfl, rfl⟩

end CodeRelation

namespace Decode

/-! ## Entries of sections -/

namespace Relocates

theorem funcType : Portable R shift Decode.funcType :=
  .position fun _ hR => byte.andThen fun _ =>
    .guard rfl hR (valueTypes.andThen fun _ => valueTypes.map _)

theorem tableType : Portable R shift Decode.tableType :=
  refType.andThen fun _ => .position fun _ hR => limits.andThen fun _ => .guard rfl hR (.pure rfl)

theorem memoryType (cap : Nat) : Portable R shift (Decode.memoryType cap) := by
  refine .position fun at_ hR => limits.andThen fun limits => .guard rfl hR ?_
  cases limits.max with
  | none => exact .pure rfl
  | some max => exact .guard rfl hR (.pure rfl)

theorem globalType : Portable R shift Decode.globalType :=
  valueType.andThen fun _ => .position fun _ hR => byte.andThen fun _ =>
    .ite .rfl (.pure rfl) (.ite .rfl (.pure rfl) (.fail rfl hR))

theorem constInstr (spaces : IndexSpaces) (globals : Bool) :
    Portable R shift (Decode.constInstr spaces globals) := by
  refine .position fun at_ hR => byte.andThen fun code => ?_
  generalize code.toNat = n
  split
  · exact s32.map _
  · exact s64.map _
  · exact f32.map _
  · exact f64.map _
  · exact refType.map _
  · exact u32.andThen fun _ => (check (spaces.rejects_funcType _) hR).map _
  · exact .guard rfl hR (u32.andThen fun _ => (check (spaces.rejects_global _) hR).andThen fun _ =>
      .guard rfl hR (.pure rfl))
  · exact .fail rfl hR

theorem constExpr (spaces : IndexSpaces) (expected : ValueType) (globals : Bool) :
    Portable R shift (Decode.constExpr spaces expected globals) :=
  .position fun _ hR => (constInstr spaces globals).andThen fun _ => byte.andThen fun _ =>
    .guard rfl hR (.guard rfl hR (.pure rfl))

theorem itemKind {fault : UInt8 → Fault} (hf : ∀ code, (fault code).isOfBinary = true) :
    Portable R shift (Decode.itemKind fault) := by
  refine .position fun at_ hR => byte.andThen fun code => ?_
  generalize code.toNat = n
  split
  any_goals exact .pure rfl
  exact .fail (hf code) hR

end Relocates

end Decode

namespace Draft

open Decode

def Relocated (L : CodeRelation) (R : Nat → Nat → Prop) (d d' : Draft) : Prop :=
  ∃ functions accessors refs, L d.module.functions d.module.accessors functions accessors ∧
    RefsRelocated R d.dataRefs refs ∧
    d' = { d with module := { d.module with functions, accessors }, dataRefs := refs }

theorem relocated_empty (options : CompileOptions) :
    (empty options).Relocated .same R (empty options) :=
  ⟨_, _, _, ⟨rfl, rfl⟩, .nil, rfl⟩

theorem rejects_addFunc (spaces : IndexSpaces) (typeIndex : Nat) (imported : Bool) :
    Rejects (spaces.addFunc typeIndex imported) :=
  (spaces.rejects_typeAt typeIndex).bind fun _ => .ok _

theorem rejects_requireItem (spaces : IndexSpaces) (index : Nat) (kind : ItemKind) :
    Rejects (requireItem spaces index kind) := by
  cases kind with
  | func => exact (spaces.rejects_funcType index).bind fun _ => .ok _
  | table => exact (spaces.rejects_table index).bind fun _ => .ok _
  | memory => exact (spaces.rejects_memory index).bind fun _ => .ok _
  | global => exact (spaces.rejects_global index).bind fun _ => .ok _

theorem rejects_requireElementTable (spaces : IndexSpaces) (type : ValueType) (mode : SegmentMode) :
    Rejects (requireElementTable spaces type mode) := by
  cases mode with
  | active index offset =>
    refine (spaces.rejects_table index).bind fun table => ?_
    split
    · exact .ok _
    · exact .error rfl
  | passive | declarative => exact .ok _

abbrev ReadsAlike (L : CodeRelation) (R Q : Nat → Nat → Prop) (shift : Nat)
    (read : Draft → Decode Draft) : Prop :=
  ∀ ⦃d d' : Draft⦄, d.Relocated L Q d' → Relocates R shift (Relocated L Q) (read d) (read d')

theorem relocates_readType : ReadsAlike L R Q shift readType := by
  rintro d _ ⟨_, _, _, hL, hrefs, rfl⟩
  exact Relocates.funcType.andThen fun _ => .pure ⟨_, _, _, hL, hrefs, rfl⟩

theorem relocates_readImportDesc (d : Draft) : Portable R shift d.readImportDesc := by
  refine .position fun at_ hR => (Relocates.itemKind fun _ => rfl).andThen fun kind => ?_
  cases kind with
  | func => exact Relocates.u32.andThen fun _ => (Relocates.check (rejects_addFunc _ _ _) hR).map _
  | table => exact Relocates.tableType.map _
  | memory => exact (Relocates.memoryType _).map _
  | global => exact Relocates.globalType.map _

theorem relocates_readImport : ReadsAlike L R Q shift readImport := by
  rintro d _ ⟨_, _, _, hL, hrefs, rfl⟩
  exact Relocates.name.andThen fun _ => Relocates.name.andThen fun _ =>
    d.relocates_readImportDesc.andThen fun _ => .pure ⟨_, _, _, hL, hrefs, rfl⟩

theorem relocates_readFunction : ReadsAlike L R Q shift readFunction := by
  rintro d _ ⟨_, _, _, hL, hrefs, rfl⟩
  exact .position fun at_ hR => Relocates.u32.andThen fun _ =>
    (Relocates.check (rejects_addFunc _ _ _) hR).andThen fun _ => .pure ⟨_, _, _, hL, hrefs, rfl⟩

theorem relocates_readTable : ReadsAlike L R Q shift readTable := by
  rintro d _ ⟨_, _, _, hL, hrefs, rfl⟩
  exact Relocates.tableType.andThen fun _ => .pure ⟨_, _, _, hL, hrefs, rfl⟩

theorem relocates_readMemory : ReadsAlike L R Q shift readMemory := by
  rintro d _ ⟨_, _, _, hL, hrefs, rfl⟩
  exact (Relocates.memoryType _).andThen fun _ => .pure ⟨_, _, _, hL, hrefs, rfl⟩

theorem relocates_readGlobal : ReadsAlike L R Q shift readGlobal := by
  rintro d _ ⟨_, _, _, hL, hrefs, rfl⟩
  exact Relocates.globalType.andThen fun _ => (Relocates.constExpr _ _ _).andThen fun _ =>
    .pure ⟨_, _, _, hL, hrefs, rfl⟩

theorem relocates_readExport : ReadsAlike L R Q shift readExport := by
  rintro d _ ⟨_, _, _, hL, hrefs, rfl⟩
  exact .position fun at_ hR => Relocates.name.andThen fun _ => .guard rfl hR
    ((Relocates.itemKind fun _ => rfl).andThen fun _ => .position fun indexAt hR' =>
      Relocates.u32.andThen fun _ =>
        (Relocates.check (rejects_requireItem _ _ _) hR').andThen fun _ =>
        .pure ⟨_, _, _, hL, hrefs, rfl⟩)

theorem relocates_readStart : ReadsAlike L R Q shift readStart := by
  rintro d _ ⟨_, _, _, hL, hrefs, rfl⟩
  exact .position fun at_ hR => Relocates.u32.andThen fun _ =>
    (Relocates.check (d.spaces.rejects_funcType _) hR).andThen fun _ => .guard rfl hR
      (.pure ⟨_, _, _, hL, hrefs, rfl⟩)

theorem relocates_readElementMode (d : Draft) (flags : Nat) :
    Portable R shift (d.readElementMode flags) := by
  refine .ite .rfl (.pure rfl) (.ite .rfl ?_ ?_)
  · exact Relocates.u32.andThen fun _ => (Relocates.constExpr _ _ _).map _
  · exact (Relocates.constExpr _ _ _).map _

theorem relocates_readElementType (flags : Nat) : Portable R shift (readElementType flags) :=
  .ite .rfl (.pure rfl) (.ite .rfl Relocates.refType
    (.position fun _ hR => Relocates.byte.andThen fun _ => .ite .rfl (.pure rfl) (.fail rfl hR)))

theorem relocates_readElementItem (d : Draft) (type : ValueType) (expressions : Bool) :
    Portable R shift (d.readElementItem type expressions) :=
  .ite .rfl (Relocates.constExpr _ _ _) (.position fun _ hR => Relocates.u32.andThen fun _ =>
      (Relocates.check (d.spaces.rejects_funcType _) hR).map _)

theorem relocates_readElement : ReadsAlike L R Q shift readElement := by
  rintro d _ ⟨_, _, _, hL, hrefs, rfl⟩
  exact .position fun at_ hR => Relocates.u32.andThen fun flags => .guard rfl hR
    ((d.relocates_readElementMode flags).andThen fun _ =>
      (relocates_readElementType flags).andThen fun _ =>
        (Relocates.check (rejects_requireElementTable _ _ _) hR).andThen fun _ =>
        Relocates.u32.andThen fun n => ((d.relocates_readElementItem _ _).many n).andThen fun _ =>
          .pure ⟨_, _, _, hL, hrefs, rfl⟩)

theorem relocates_readDataMode (d : Draft) : Portable R shift d.readDataMode := by
  refine .position fun at_ hR => Relocates.u32.andThen fun flags => ?_
  have hactive : ∀ memory : Nat, Relocates R shift Eq (do
        let _ ← charge at_ (d.spaces.memory memory)
        return SegmentMode.active memory (← constExpr d.spaces .i32 false))
      (do
        let _ ← charge (at_ + shift) (d.spaces.memory memory)
        return SegmentMode.active memory (← constExpr d.spaces .i32 false)) :=
    fun memory => (Relocates.check (d.spaces.rejects_memory _) hR).andThen fun _ =>
      (Relocates.constExpr _ _ _).map _
  split
  · exact hactive 0
  · exact Relocates.u32.andThen hactive
  · exact .pure rfl
  · exact .fail rfl hR

theorem relocates_readData : ReadsAlike L R Q shift readData := by
  rintro d _ ⟨_, _, _, hL, hrefs, rfl⟩
  exact d.relocates_readDataMode.andThen fun _ => Relocates.u32.andThen fun n =>
    (Relocates.bytes n).andThen fun _ => .pure ⟨_, _, _, hL, hrefs, rfl⟩

theorem relocates_readDataSection (h : d.Relocated L Q d') :
    Relocates R shift (Relocated L Q) d.readDataSection d'.readDataSection := by
  obtain ⟨functions, accessors, refs, hL, hrefs, rfl⟩ := h
  obtain ⟨module, dataCount, seen, refs0⟩ := d
  refine .position fun at_ hR => Relocates.u32.andThen fun count => ?_
  have hfold : Relocates R shift (Relocated L Q)
      (fold readData count ⟨module, dataCount, true, refs0⟩)
      (fold readData count ⟨{ module with functions, accessors }, dataCount, true, refs⟩) :=
    .fold relocates_readData count ⟨functions, accessors, refs, hL, hrefs, rfl⟩
  cases dataCount with
  | none => exact hfold
  | some expected => exact .guard rfl hR hfold

theorem relocates_readCode (hQ : ∀ o o', R o o' → Q o o') (hrespects : L.Respected options options')
    {ctx : BodyContext}
    (hctx : ctx.useAccessors = options.accessors) (h : d.Relocated L Q d') :
    Relocates R shift (Relocated L Q) (d.readCode ctx)
      (d'.readCode { ctx with useAccessors := options'.accessors }) := by
  obtain ⟨functions, accessors, refs, hL, hrefs, rfl⟩ := h
  unfold readCode
  rw [hrespects.size hL]
  refine Relocates.u32.andThen fun size => (Relocates.sub size).bind fun range range' hrange => ?_
  exact ((hrespects.body hL ctx hctx _ hQ hrefs).within hrange).bind fun r r' ⟨hL', hrefs'⟩ =>
    .pure ⟨_, _, _, hL', hrefs', rfl⟩

theorem relocates_readCodeSection (hQ : ∀ o o', R o o' → Q o o')
    (hrespects : L.Respected options options') (h : d.Relocated L Q d') :
    Relocates R shift (Relocated L Q) (d.readCodeSection options)
      (d'.readCodeSection options') := by
  have hcontext : d'.bodyContext options' =
      { d.bodyContext options with useAccessors := options'.accessors } := by
    obtain ⟨_, _, _, -, -, rfl⟩ := h
    rfl
  have hspaces : d'.spaces = d.spaces := by
    obtain ⟨_, _, _, -, -, rfl⟩ := h
    rfl
  unfold readCodeSection
  rw [hcontext, hspaces]
  exact .position fun at_ hR => Relocates.u32.andThen fun count =>
    .guard rfl hR (.fold (fun _ _ => relocates_readCode hQ hrespects rfl) count h)

theorem relocates_readSection (hQ : ∀ o o', R o o' → Q o o')
    (hrespects : L.Respected options options') (h : d.Relocated L Q d') (kind : Section) :
    Relocates R shift (Relocated L Q) (d.readSection options kind)
      (d'.readSection options' kind) := by
  have hentries : ∀ {read : Draft → Decode Draft}, ReadsAlike L R Q shift read →
      Relocates R shift (Relocated L Q) (do fold read (← u32) d) (do fold read (← u32) d') :=
    fun hread => Relocates.u32.andThen fun n => .fold hread n h
  cases kind with
  | custom => exact .pure h
  | type => exact hentries relocates_readType
  | imports => exact hentries relocates_readImport
  | function => exact hentries relocates_readFunction
  | table => exact hentries relocates_readTable
  | memory => exact hentries relocates_readMemory
  | global => exact hentries relocates_readGlobal
  | exports => exact hentries relocates_readExport
  | start => exact relocates_readStart h
  | element => exact hentries relocates_readElement
  | dataCount =>
    obtain ⟨_, _, _, hL, hrefs, rfl⟩ := h
    exact Relocates.u32.andThen fun _ => .pure ⟨_, _, _, hL, hrefs, rfl⟩
  | code => exact relocates_readCodeSection hQ hrespects h
  | data => exact relocates_readDataSection h

/-- Reads the body of a section to its end. -/
def readWhole (d : Draft) (options : CompileOptions) (kind : Section) : Decode Draft := do
  let draft ← d.readSection options kind
  unless ← isEmpty do fail .sectionSizeMismatch (← position)
  return draft

theorem relocates_readWhole (hQ : ∀ o o', R o o' → Q o o')
    (hrespects : L.Respected options options') (h : d.Relocated L Q d') (kind : Section) :
    Relocates R shift (Relocated L Q) (d.readWhole options kind) (d'.readWhole options' kind) := by
  refine (relocates_readSection hQ hrespects h kind).bind fun d1 d1' h1 =>
    Relocates.isEmpty.andThen fun empty => ?_
  cases empty with
  | true => exact .pure h1
  | false => exact .position fun at_ hR => fun _ _ _ => .error ⟨rfl, hR, rfl⟩

end Draft

/-! ## All sections -/

namespace Decode

def SectionsRelocated (L : CodeRelation) (R : Nat → Nat → Prop) (state state' : Nat × Draft) :
    Prop :=
  state'.1 = state.1 ∧ state.2.Relocated L R state'.2

theorem takeSection_outcome (hrespects : L.Respected options options')
    (h : SectionsRelocated L R state state') (hat : R at_ at') (id : UInt8) (kind : Section)
    (hrange : range.Relocated R shift range') (hc : C c c') :
    Outcome R C (SectionsRelocated L R) (takeSection options state at_ id kind range c)
      (takeSection options' state' at' id kind range' c') := by
  obtain ⟨rank, d⟩ := state
  obtain ⟨rank', d'⟩ := state'
  obtain ⟨hrank, hd⟩ := h
  obtain rfl : rank' = rank := hrank
  unfold takeSection
  by_cases heq : kind.rank = rank'
  · rw [if_pos heq, if_pos heq]
    exact .error ⟨rfl, hat, rfl⟩
  rw [if_neg heq, if_neg heq]
  by_cases hlt : kind.rank < rank'
  · rw [if_pos hlt, if_pos hlt]
    exact .error ⟨rfl, hat, rfl⟩
  rw [if_neg hlt, if_neg hlt]
  exact ((Draft.relocates_readWhole (fun _ _ h => h) hrespects hd kind).within_outcome
    hrange hc).bind
    fun d1 d1' _ _ _ hd1 hc1 => .ok ⟨rfl, hd1⟩ hc1

theorem relocates_oneSection (hrespects : L.Respected options options')
    (h : SectionsRelocated L R state state') :
    Relocates R shift (SectionsRelocated L R) (oneSection options state)
      (oneSection options' state') := by
  rw [oneSection_eq, oneSection_eq]
  refine .position fun at_ hR => Relocates.byte.andThen fun id => ?_
  cases Section.ofId? id with
  | none => exact .fail rfl hR
  | some kind =>
    refine Relocates.u32.andThen fun size => (Relocates.sub size).bind fun range range' hrange => ?_
    exact .ite .rfl (.pure h) fun c c' hc => takeSection_outcome hrespects h hR id kind hrange hc

theorem remaining_lt_of_oneSection (h : oneSection options state c = .ok state' c') :
    c'.remaining < c.remaining := by
  obtain ⟨bs, kind, content, hframe, ho, -⟩ := frame_of_oneSection h
  exact hframe.remaining_lt ho

theorem sections_fuel {fuel fuel' : Nat} (h : c.remaining ≤ fuel) (h' : c.remaining ≤ fuel') :
    sections options fuel state c = sections options fuel' state c := by
  induction fuel generalizing fuel' state c with
  | zero =>
    have hleft : c.left = [] :=
      eq_nil_of_length_eq_zero (c.length_left ▸ Nat.le_zero.mp h)
    rw [sections_of_empty _ _ _ hleft, sections_of_empty _ _ _ hleft]
  | succ fuel ih =>
    by_cases hleft : c.left = []
    · rw [sections_of_empty _ _ _ hleft, sections_of_empty _ _ _ hleft]
    · have hpos : 0 < c.remaining := c.length_left ▸ length_pos_iff.mpr hleft
      obtain ⟨fuel', rfl⟩ : ∃ n, fuel' = n + 1 := ⟨fuel' - 1, by omega⟩
      rw [sections_of_bytes _ _ _ hleft, sections_of_bytes _ _ _ hleft]
      cases hone : oneSection options state c with
      | error e c1 => rw [bind_of_error hone, bind_of_error hone]
      | ok state1 c1 =>
        have hlt := remaining_lt_of_oneSection hone
        rw [bind_of_ok hone, bind_of_ok hone]
        exact ih (by omega) (by omega)

end Decode

/-! ## Modules -/

theorem RefsRelocated.find? (h : RefsRelocated R refs refs') (count : Nat) :
    (refs.find? (fun ref => ref.1 ≥ count) = none ∧ refs'.find? (fun ref => ref.1 ≥ count) = none) ∨
      ∃ index offset offset', refs.find? (fun ref => ref.1 ≥ count) = some (index, offset) ∧
        refs'.find? (fun ref => ref.1 ≥ count) = some (index, offset') ∧ R offset offset' := by
  unfold RefsRelocated at h
  rw [← Array.find?_toList, ← Array.find?_toList]
  generalize refs.toList = entries, refs'.toList = entries' at h ⊢
  induction h with
  | nil => exact .inl ⟨rfl, rfl⟩
  | @cons ref ref' refs refs' href _ ih =>
    obtain ⟨index, offset⟩ := ref
    obtain ⟨index', offset'⟩ := ref'
    obtain ⟨rfl, hR⟩ := href
    by_cases hge : count ≤ index'
    · refine .inr ⟨index', offset, offset', ?_, ?_, hR⟩
      · exact find?_cons_of_pos (decide_eq_true hge)
      · exact find?_cons_of_pos (decide_eq_true hge)
    · rw [find?_cons_of_neg (by simpa using hge), find?_cons_of_neg (by simpa using hge)]
      exact ih

def Module.Relocated (L : CodeRelation) (m m' : Module) : Prop :=
  ∃ functions accessors, L m.functions m.accessors functions accessors ∧
    m' = { m with functions, accessors }

theorem Module.Relocated.eq {m m' : Module} (h : m.Relocated .same m') : m' = m := by
  obtain ⟨_, _, ⟨rfl, rfl⟩, rfl⟩ := h
  rfl

theorem Draft.Relocated.finish (hrespects : L.Respected options options') (h : d.Relocated L R d')
    {stop stop' : Nat} (hR : R stop stop') :
    (∃ m m', d.finish stop = .ok m ∧ d'.finish stop' = .ok m' ∧ m.Relocated L m') ∨
      ∃ e e', d.finish stop = .error e ∧ d'.finish stop' = .error e' ∧ e.Relocated R e' := by
  obtain ⟨functions, accessors, refs, hL, hrefs, rfl⟩ := h
  have hspaces : ({ d with
        module := { d.module with functions, accessors }, dataRefs := refs } : Draft).spaces =
      d.spaces :=
    rfl
  unfold Draft.finish
  rw [hspaces]
  rw [hrespects.size hL]
  by_cases hcount : d.module.functions.size ≠ d.spaces.definedFuncs
  · rw [if_pos hcount, if_pos hcount]
    exact .inr ⟨_, _, rfl, rfl, rfl, hR, rfl⟩
  rw [if_neg hcount, if_neg hcount]
  by_cases hseen : (!d.dataSeen && d.dataCount.getD 0 ≠ 0) = true
  · rw [if_pos hseen, if_pos hseen]
    exact .inr ⟨_, _, rfl, rfl, rfl, hR, rfl⟩
  rw [if_neg hseen, if_neg hseen]
  obtain ⟨hnone, hnone'⟩ | ⟨index, offset, offset', hsome, hsome', hoffset⟩ :=
    hrefs.find? d.module.data.size
  · rw [hnone, hnone']
    exact .inl ⟨_, _, rfl, rfl, functions, accessors, hL, rfl⟩
  · rw [hsome, hsome']
    exact .inr ⟨_, _, rfl, rfl, rfl, hoffset, rfl⟩

namespace Decode

def moduleBehind (options : CompileOptions) (state : Nat × Draft) : Decode Module := do
  let draft ← sections options (← get).remaining state
  match draft.finish (← position) with
  | .ok module => pure module
  | .error e => throw e

theorem module_eq (options : CompileOptions) :
    Decode.module options = (do header; moduleBehind options (0, .empty options)) := rfl

theorem moduleBehind_of_empty (h : c.left = []) : moduleBehind options state c =
    match state.2.finish c.position with
    | .ok module => .ok module c
    | .error e => .error e c := by
  have hget : (get : Decode Cursor) c = .ok c c := rfl
  have hpos : position c = .ok c.position c := rfl
  rw [moduleBehind, bind_of_ok hget, bind_of_ok (sections_of_empty options _ state h),
    bind_of_ok hpos]
  cases state.2.finish c.position <;> rfl

theorem moduleBehind_of_bytes (h : c.left ≠ []) : moduleBehind options state c =
    (oneSection options state >>= moduleBehind options) c := by
  have hget : ∀ c : Cursor, (get : Decode Cursor) c = .ok c c := fun _ => rfl
  have hsucc : sections options c.remaining state c = sections options (c.remaining + 1) state c :=
    sections_fuel (Nat.le_refl _) (Nat.le_succ _)
  rw [sections_of_bytes _ _ _ h] at hsucc
  cases hone : oneSection options state c with
  | error e c1 =>
    rw [bind_of_error hone] at hsucc
    rw [moduleBehind, bind_of_ok (hget c), bind_of_error hsucc, bind_of_error hone]
  | ok state1 c1 =>
    have hfuel : sections options c.remaining state1 c1 = sections options c1.remaining state1 c1 :=
      sections_fuel (Nat.le_of_lt (remaining_lt_of_oneSection hone)) (Nat.le_refl _)
    rw [bind_of_ok hone, hfuel] at hsucc
    rw [bind_of_ok hone, moduleBehind, moduleBehind, bind_of_ok (hget c), bind_of_ok (hget c1)]
    cases hrest : sections options c1.remaining state1 c1 with
    | error e c2 => rw [bind_of_error hrest, bind_of_error (hsucc.trans hrest)]
    | ok d c2 => rw [bind_of_ok hrest, bind_of_ok (hsucc.trans hrest)]

theorem relocates_moduleBehind (hrespects : L.Respected options options')
    (h : SectionsRelocated L R state state') :
    Relocates R shift (Module.Relocated L) (moduleBehind options state)
      (moduleBehind options' state') := by
  intro c c' hc
  induction hn : c.remaining using Nat.strongRecOn generalizing state state' c c' with
  | _ n ih =>
    by_cases hleft : c.left = []
    · rw [moduleBehind_of_empty hleft, moduleBehind_of_empty (hc.left.trans hleft)]
      obtain ⟨m, m', hfinish, hfinish', hm⟩ | ⟨e, e', hfinish, hfinish', he⟩ :=
        h.2.finish hrespects hc.here
      · rw [hfinish, hfinish']
        exact .ok hm hc
      · rw [hfinish, hfinish']
        exact .error he
    · rw [moduleBehind_of_bytes hleft, moduleBehind_of_bytes (hc.left ▸ hleft)]
      refine (relocates_oneSection hrespects h c c' hc).bind fun s s' c1 c1' hone hs hc1 => ?_
      exact ih _ (hn ▸ remaining_lt_of_oneSection hone) hs c1 c1' hc1 rfl

theorem relocates_header : Portable R shift header :=
  .position fun _ hR => (Relocates.bytes 4).andThen fun _ => .guard rfl hR
    (.position fun _ hR => (Relocates.bytes 4).andThen fun _ =>
      .ite .rfl (.fail rfl hR) (.pure rfl))

theorem relocates_module (hrespects : L.Respected options options')
    (hempty : (Draft.empty options).Relocated L R (.empty options')) :
    Relocates R shift (Module.Relocated L) (Decode.module options) (Decode.module options') :=
  relocates_header.andThen fun _ => relocates_moduleBehind hrespects ⟨rfl, hempty⟩

end Decode

end Wasm
