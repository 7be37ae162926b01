import Wasm.Proofs.Module.Relocation

/-! # Where faults are charged

`Decode.Runs` are the decoders that run while a binary is compiled; one that fails is what the whole
fails with. -/

namespace Wasm

variable {c c' range : Cursor} {s : BodyState} {fault : Fault} {at_ : Nat} {d : Draft}
  {state : Nat × Draft}

variable {options : CompileOptions} {binary : ByteArray} {e : CompileError}

namespace Decode

/-- Compiling a binary runs a decoder at a place. -/
inductive Runs (options : CompileOptions) (binary : ByteArray) :
    {α : Type} → Decode α → Cursor → Prop
  | module : Runs options binary (Decode.module options) (.ofBytes binary 0)
  | first {α β : Type} {x : Decode α} {f : α → Decode β} {c : Cursor}
      (h : Runs options binary (x >>= f) c) : Runs options binary x c
  | next {α β : Type} {x : Decode α} {f : α → Decode β} {c c1 : Cursor} {a : α}
      (h : Runs options binary (x >>= f) c) (hx : x c = .ok a c1) : Runs options binary (f a) c1
  | within {α : Type} {x : Decode α} {range c : Cursor}
      (h : Runs options binary (within range x) c) : Runs options binary x range

theorem Runs.compile_eq_error {α : Type} {x : Decode α} (h : Runs options binary x c)
    (hx : x c = .error e c') : Module.compile options binary = .error e := by
  induction h generalizing c' with
  | module => rw [Module.compile, hx]
  | first _ ih => exact ih (bind_of_error hx)
  | next _ hok ih => exact ih ((bind_of_ok hok).trans hx)
  | @within α x range c _ ih =>
    have hwithin : Decode.within range x c = .error e c := by rw [Decode.within, hx]
    exact ih hwithin

def Own (range : Cursor) (offset offset' : Nat) : Prop :=
  offset' = offset ∧ range.position ≤ offset ∧ offset ≤ range.position + range.remaining

theorem Relocates.offset_mem {α : Type} {S : α → α → Prop} {x : Decode α}
    (h : Relocates (Own range) 0 S x x) (hx : x range = .error e c') :
    range.position ≤ e.offset ∧ e.offset ≤ range.position + range.remaining := by
  have houtcome := h range range ⟨rfl, rfl, fun offset hle hlt => ⟨rfl, hle, hlt⟩⟩
  rw [hx] at houtcome
  cases houtcome with
  | error he => exact he.offset.2

end Decode

theorem refsRelocated_self (refs : Array (Nat × Nat)) :
    RefsRelocated (fun o o' => o' = o) refs refs :=
  List.forall₂_same.mpr fun _ _ => ⟨rfl, rfl⟩

theorem Draft.offset_of_readWhole (d : Draft) {kind : Section}
    (h : d.readWhole options kind range = .error e c') :
    range.position ≤ e.offset ∧ e.offset ≤ range.position + range.remaining :=
  (relocates_readWhole (fun _ _ (hown : Decode.Own range _ _) => hown.1)
    (CodeRelation.respected_same options)
    ⟨_, _, _, ⟨rfl, rfl⟩, refsRelocated_self d.dataRefs, rfl⟩ kind).offset_mem h

variable {ctx : BodyContext} {c1 : Cursor} {i : Instr}

theorem Decode.instructions_of_step (fuel : Nat) (hinstr : instr c = .ok i c1)
    (hstep : s.step ctx c.position i = .error fault) :
    instructions ctx (fuel + 1) s c = .error ⟨fault, c.position⟩ c1 := by
  have hposition : position c = .ok c.position c := rfl
  rw [instructions, bind_of_ok hposition, bind_of_ok hinstr, hstep]
  rfl

theorem Decode.instructions_of_instr (fuel : Nat) (hinstr : instr c = .error e c1) :
    instructions ctx (fuel + 1) s c = .error e c1 := by
  have hposition : position c = .ok c.position c := rfl
  rw [instructions, bind_of_ok hposition, bind_of_error hinstr]

theorem BodyState.mem_dataRefs_of_step {s' : BodyState} (h : s.step ctx at_ i = .ok s')
    {ref : Nat × Nat} (href : ref ∈ s'.dataRefs) :
    ref ∈ s.dataRefs ∨ i.dataIndex? = some ref.1 ∧ ref.2 = at_ := by
  unfold step at h
  split at h
  · cases h
  · obtain ⟨e, -, h⟩ := except_bind_eq_ok.mp h
    cases h
    split at href
    · next hindex =>
      obtain hold | rfl := Array.mem_push.mp href
      · exact .inl hold
      · exact .inr ⟨hindex, rfl⟩
    · exact .inl href

/-! ## Operands of instructions

The operands of an instruction are decoded before it is checked.  They may fail in decoding, and
then are charged to their own place; a fault of any other kind is the instruction's. -/

/-- The faults of bytes that do not decode. -/
def Fault.isOfDecoding : Fault → Bool
  | unexpectedEnd | malformedLeb128 | invalidUtf8 | badMagic | unsupportedVersion _
  | unknownSection _ | sectionOutOfOrder _ | duplicateSection _ | sectionSizeMismatch
  | unknownOpcode _ | unknownPrefixedOpcode _ _ | invalidValueType _ | invalidRefType _
  | invalidTypeForm _ | invalidBlockType | invalidLimitsFlags _ | invalidMutability _
  | invalidImportKind _ | invalidExportKind _ | invalidSegmentFlags _ | trailingBytes => true
  | _ => false

namespace Decode

def Charges (at_ : Nat) {α : Type} (x : Decode α) : Prop :=
  ∀ c e c', x c = .error e c' → e.fault.isOfDecoding = true ∨ e.offset = at_

namespace Charges

variable {α β : Type}

theorem pure (a : α) : Charges at_ (Pure.pure a) := by
  intro c e c' h
  cases h

theorem fail_decoding (h : fault.isOfDecoding = true) (offset : Nat) :
    Charges at_ (Decode.fail fault offset : Decode α) := by
  intro c e c' hfail
  cases hfail
  exact .inl h

theorem fail (fault : Fault) : Charges at_ (Decode.fail fault at_ : Decode α) := by
  intro c e c' hfail
  cases hfail
  exact .inr rfl

theorem bind {x : Decode α} {f : α → Decode β} (hx : Charges at_ x) (hf : ∀ a, Charges at_ (f a)) :
    Charges at_ (x >>= f) := by
  intro c e c' h
  obtain h | ⟨a, c1, -, h⟩ := bind_eq_error.mp h
  · exact hx c e c' h
  · exact hf a c1 e c' h

theorem map {x : Decode α} (h : Charges at_ x) (f : α → β) : Charges at_ (do return f (← x)) :=
  h.bind fun _ => .pure _

theorem ite {P : Prop} [Decidable P] {x y : Decode α} (hx : Charges at_ x) (hy : Charges at_ y) :
    Charges at_ (if P then x else y) := by
  split
  · exact hx
  · exact hy

theorem position : Charges at_ position := by
  intro c e c' h
  cases h

theorem byte : Charges at_ byte := by
  intro c e c' h
  unfold Decode.byte at h
  split at h
  · cases h
  · cases h
    exact .inl rfl

theorem bytes (n : Nat) : Charges at_ (bytes n) := by
  intro c e c' h
  unfold Decode.bytes at h
  split at h
  · cases h
  · cases h
    exact .inl rfl

theorem groups {groups : Nat} {Form : List UInt8 → α → Prop} {x : Decode α}
    (h : ReadsGroups groups Form x) : Charges at_ x := by
  intro c e c' hx
  obtain ⟨rfl, -⟩ | ⟨-, offset, rfl, -⟩ := h.fails hx
  · exact .inl rfl
  · exact .inl rfl

theorem u32 : Charges at_ u32 := u32_eq ▸ groups (readsGroups_unsigned 32 (by decide))

theorem s32 : Charges at_ s32 := s32_eq ▸ groups (readsGroups_signed 32 (by decide))

theorem s33 : Charges at_ s33 := s33_eq ▸ groups (readsGroups_signed 33 (by decide))

theorem s64 : Charges at_ s64 := s64_eq ▸ groups (readsGroups_signed 64 (by decide))

theorem many {x : Decode α} (h : Charges at_ x) (n : Nat) : Charges at_ (many n x) := by
  have hfold : ∀ (n : Nat) (acc : List α),
      Charges at_ (fold (fun acc => return (← x) :: acc) n acc) := by
    intro n
    induction n with
    | zero => exact fun acc => .pure acc
    | succ n ih => exact fun acc => (h.map _).bind ih
  exact (hfold n []).map _

theorem valueType : Charges at_ valueType := by
  refine position.bind fun offset => byte.bind fun code => ?_
  cases ValueType.ofCode? code with
  | some type => exact .pure _
  | none => exact .fail_decoding rfl _

theorem refType : Charges at_ refType := by
  refine position.bind fun offset => byte.bind fun code => ?_
  cases ValueType.ofCode? code with
  | some type => exact .ite (.pure _) (.fail_decoding rfl _)
  | none => exact .fail_decoding rfl _

theorem blockType : Charges at_ blockType := by
  refine position.bind fun offset => s33.bind fun raw => position.bind fun after => ?_
  refine .ite (.pure _) (.ite (.fail_decoding rfl _) (.ite (.pure _) ?_))
  cases ValueType.ofCode? _ with
  | some type => exact .pure _
  | none => exact .fail_decoding rfl _

theorem memArg : Charges at_ memArg :=
  u32.bind fun _ => .ite (u32.bind fun _ => u32.map _) (u32.map _)

theorem indices (f : Nat → Nat → α) : Charges at_ (do return f (← Decode.u32) (← Decode.u32)) :=
  u32.bind fun _ => u32.map _

theorem prefixed (code : UInt8) (offset : Nat) : Charges at_ (prefixed offset code) := by
  refine u32.bind fun sub => ?_
  cases clampingConversions[sub]? with
  | some op => exact .pure _
  | none =>
    dsimp only
    split
    any_goals first | exact u32.map _ | exact indices _
    exact .fail_decoding rfl _

/-- The type of a typed `select` that declares another number of types is charged to it. -/
theorem selectType : Charges at_ (selectType at_) := u32.bind fun _ => .ite valueType (.fail _)

theorem instr (h : instr c = .error e c') :
    e.fault.isOfDecoding = true ∨ e.offset = c.position := by
  have hposition : Decode.position c = .ok c.position c := rfl
  rw [Decode.instr, bind_of_ok hposition] at h
  refine (show Charges c.position _ from byte.bind fun code => ?_) c e c' h
  generalize code.toNat = n
  split
  any_goals first | exact .pure _ | exact u32.map _ | exact blockType.map _
  · exact u32.bind fun n => (u32.many n).bind fun _ => u32.map _
  · exact indices _
  · exact selectType.map _
  · exact s32.map _
  · exact s64.map _
  · exact ((bytes 4).map _).map _
  · exact ((bytes 8).map _).map _
  · exact refType.map _
  · exact prefixed code _
  · cases entry? loads 0x28 n with
    | some access => exact memArg.map _
    | none =>
      cases entry? stores 0x36 n with
      | some access => exact memArg.map _
      | none =>
        cases entry? numerics 0x45 n with
        | some numeric => exact .pure _
        | none => exact .fail _

end Charges

end Decode

/-! ## References to data segments

Whether a data segment exists that an instruction refers to may be judged at the end of the module
only.  Such a reference is noted with the place of its instruction. -/

namespace Decode

def RunsTo {α : Type} (options : CompileOptions) (binary : ByteArray) (P : α → Prop)
    (x : Decode α) : Prop :=
  ∀ c a c', Runs options binary x c → x c = .ok a c' → P a

namespace RunsTo

variable {α β : Type} {P : α → Prop} {Q : β → Prop}

theorem pure {a : α} (h : P a) : RunsTo options binary P (Pure.pure a) := by
  intro c b c' _ hb
  cases hb
  exact h

theorem bind {x : Decode α} {f : α → Decode β} (hx : RunsTo options binary P x)
    (hf : ∀ a, P a → RunsTo options binary Q (f a)) : RunsTo options binary Q (x >>= f) := by
  intro c b c' hruns hb
  obtain ⟨a, c1, ha, hb⟩ := bind_eq_ok.mp hb
  exact hf a (hx c a c1 hruns.first ha) c1 b c' (hruns.next ha) hb

theorem next {x : Decode α} {f : α → Decode β} (hf : ∀ a, RunsTo options binary Q (f a)) :
    RunsTo options binary Q (x >>= f) := by
  have hx : RunsTo options binary (fun _ => True) x := fun _ _ _ _ _ => trivial
  exact hx.bind fun a _ => hf a

theorem fail (fault : Fault) (offset : Nat) :
    RunsTo options binary P (Decode.fail fault offset) := by
  intro c a c' _ ha
  cases ha

theorem within {x : Decode α} (range : Cursor) (h : RunsTo options binary P x) :
    RunsTo options binary P (Decode.within range x) := by
  intro c a c' hruns ha
  obtain ⟨⟨c1, hx⟩, -⟩ := within_eq_ok.mp ha
  exact h range a c1 hruns.within hx

theorem fold {step : α → Decode α} (h : ∀ a, P a → RunsTo options binary P (step a)) (n : Nat)
    {a : α} (ha : P a) : RunsTo options binary P (Decode.fold step n a) := by
  induction n generalizing a with
  | zero => exact .pure ha
  | succ n ih => exact (h a ha).bind fun _ hb => ih hb

end RunsTo

def Noted (options : CompileOptions) (binary : ByteArray) (refs : Array (Nat × Nat)) : Prop :=
  ∀ ref ∈ refs, ∃ ctx fuel s c c1 i, Runs options binary (instructions ctx (fuel + 1) s) c ∧
    instr c = .ok i c1 ∧ i.dataIndex? = some ref.1 ∧ c.position = ref.2

theorem runsTo_instructions (ctx : BodyContext) (fuel : Nat) (h : Noted options binary s.dataRefs) :
    RunsTo options binary (fun s' => Noted options binary s'.dataRefs)
      (instructions ctx fuel s) := by
  induction fuel generalizing s with
  | zero =>
    intro c s' c' _ hs
    cases hs
  | succ fuel ih =>
    intro c s' c' hruns hs
    obtain ⟨at_, c0, hat, hs⟩ := bind_eq_ok.mp hs
    have hrest := hruns.next hat
    cases hat
    obtain ⟨i, c1, hi, hs⟩ := bind_eq_ok.mp hs
    obtain ⟨s1, c2, hcharge, hs⟩ := bind_eq_ok.mp hs
    have hrest := (hrest.next hi).next hcharge
    obtain ⟨hstep, -⟩ := charge_eq_ok.mp hcharge
    have hnoted : Noted options binary s1.dataRefs := by
      intro ref href
      obtain hold | ⟨hindex, hplace⟩ := BodyState.mem_dataRefs_of_step hstep href
      · exact h ref hold
      · exact ⟨ctx, fuel, s, c, c1, i, hruns, hi, hindex, hplace.symm⟩
    split at hs
    · cases hs
      exact hnoted
    · next hopen =>
      rw [if_neg hopen] at hrest
      exact ih hnoted c2 s' c' hrest hs

theorem runsTo_body (ctx : BodyContext) (index : Nat) (accessors : Accessors)
    {refs : Array (Nat × Nat)} (h : Noted options binary refs) :
    RunsTo options binary (fun out => Noted options binary out.2.2)
      (body ctx index accessors refs) := by
  refine .next fun _ => .next fun type => .next fun _ => .next fun locals => .next fun _ => ?_
  refine (runsTo_instructions _ _ h).bind fun s hs => .next fun empty => ?_
  cases empty with
  | true => exact .next fun _ => .pure hs
  | false => exact .next fun _ => .fail _ _

end Decode

namespace Draft

open Decode

def Notes (options : CompileOptions) (binary : ByteArray) (d : Draft) : Prop :=
  Noted options binary d.dataRefs

theorem runsTo_readCode (ctx : BodyContext) (h : d.Notes options binary) :
    RunsTo options binary (Notes options binary) (readCode ctx d) := by
  refine .next fun _ => .next fun range => ?_
  exact ((runsTo_body ctx _ _ h).within range).bind fun _ hrefs => .pure hrefs

theorem runsTo_readSection (h : d.Notes options binary) (kind : Section) :
    RunsTo options binary (Notes options binary) (d.readSection options kind) := by
  cases kind with
  | custom => exact .pure h
  | type | table | memory =>
    refine .next fun n => .fold (fun d hd => ?_) n h
    exact .next fun _ => .pure hd
  | global =>
    refine .next fun n => .fold (fun d hd => ?_) n h
    exact .next fun _ => .next fun _ => .pure hd
  | imports | function =>
    refine .next fun n => .fold (fun d hd => ?_) n h
    exact .next fun _ => .next fun _ => .next fun _ => .pure hd
  | exports =>
    refine .next fun n => .fold (fun d hd => .next fun _ => .next fun name => ?_) n h
    split
    · exact .fail _ _
    · exact .next fun _ => .next fun _ => .next fun _ => .next fun _ => .pure hd
  | start =>
    refine .next fun _ => .next fun _ => .next fun _ => ?_
    split
    · exact .fail _ _
    · exact .pure h
  | element =>
    refine .next fun n => .fold (fun d hd => .next fun _ => .next fun flags => ?_) n h
    split
    · exact .fail _ _
    · exact .next fun _ => .next fun _ => .next fun _ => .next fun _ => .next fun _ => .pure hd
  | dataCount => exact .next fun _ => .pure h
  | code =>
    refine .next fun _ => .next fun count => ?_
    split
    · exact .fail _ _
    · exact .fold (fun d hd => runsTo_readCode _ hd) count h
  | data =>
    have hdata (n : Nat) : RunsTo options binary (Notes options binary)
        (fold readData n { d with dataSeen := true }) := by
      refine .fold (fun d hd => ?_) n h
      exact .next fun _ => .next fun _ => .next fun _ => .pure hd
    refine .next fun _ => .next fun n => ?_
    split
    · split
      · exact .fail _ _
      · exact hdata n
    · exact hdata n

end Draft

theorem Draft.mem_dataRefs_of_finish {stop index offset : Nat}
    (h : d.finish stop = .error ⟨.invalidDataIndex index, offset⟩) :
    (index, offset) ∈ d.dataRefs := by
  unfold finish at h
  split at h
  · cases h
  · split at h
    · cases h
    · split at h
      · next hfind =>
        cases h
        exact Array.mem_of_find?_eq_some hfind
      · cases h

namespace Decode

theorem runsTo_oneSection (h : state.2.Notes options binary) :
    RunsTo options binary (fun state => state.2.Notes options binary)
      (oneSection options state) := by
  rw [oneSection_eq]
  refine .next fun at_ => .next fun id => ?_
  cases Section.ofId? id with
  | none => exact .fail _ _
  | some kind =>
    refine .next fun _ => .next fun range => ?_
    split
    · exact .pure h
    · unfold takeSection
      by_cases hduplicate : kind.rank = state.1
      · rw [if_pos hduplicate]
        exact .fail _ _
      rw [if_neg hduplicate]
      by_cases hlate : kind.rank < state.1
      · rw [if_pos hlate]
        exact .fail _ _
      rw [if_neg hlate]
      refine RunsTo.bind (.within range ?_) fun _ hd => .pure hd
      refine (Draft.runsTo_readSection h kind).bind fun _ hd => .next fun empty => ?_
      cases empty with
      | true => exact .pure hd
      | false => exact .next fun _ => .fail _ _

theorem runsTo_sections (fuel : Nat) (h : state.2.Notes options binary) :
    RunsTo options binary (Draft.Notes options binary) (sections options fuel state) := by
  induction fuel generalizing state with
  | zero => exact .pure h
  | succ fuel ih =>
    refine .next fun empty => ?_
    cases empty with
    | true => exact .pure h
    | false => exact (runsTo_oneSection h).bind fun _ hstate => ih hstate

theorem Runs.sections (h : header (.ofBytes binary 0) = .ok () c) :
    Runs options binary (sections options c.remaining (0, .empty options)) c := by
  have hbehind : Runs options binary (moduleBehind options (0, .empty options)) c :=
    .next (x := header) (f := fun _ => moduleBehind options (0, .empty options)) .module h
  have hget : (get : Decode Cursor) c = .ok c c := rfl
  exact (hbehind.next hget).first

end Decode

/-- **Offsets point into the input**: into the body of the section at fault, and at the first byte
    of an instruction that fails its check or refers to no data segment. -/
theorem Module.error_offsets (options : CompileOptions) (binary : ByteArray) :
    (∀ e, Module.compile options binary = .error e → e.offset ≤ binary.size) ∧
    (∀ (d : Draft) (kind : Section) (body c' : Cursor) (e : CompileError),
      Decode.Runs options binary (d.readWhole options kind) body →
      d.readWhole options kind body = .error e c' → Module.compile options binary = .error e ∧
          body.position ≤ e.offset ∧ e.offset ≤ body.position + body.remaining) ∧
    (∀ (ctx : BodyContext) (fuel : Nat) (s : BodyState) (c : Cursor),
      Decode.Runs options binary (Decode.instructions ctx (fuel + 1) s) c →
        (∀ (c1 : Cursor) (i : Instr) (fault : Fault),
          Decode.instr c = .ok i c1 → s.step ctx c.position i = .error fault →
            Module.compile options binary = .error ⟨fault, c.position⟩) ∧
        ∀ (c1 : Cursor) (e : CompileError), Decode.instr c = .error e c1 →
          Module.compile options binary = .error e ∧
            (e.fault.isOfDecoding = true ∨ e.offset = c.position)) ∧
    (∀ (d : Draft) (c c' : Cursor) (index offset : Nat),
      Decode.header (.ofBytes binary 0) = .ok () c →
      Decode.sections options c.remaining (0, .empty options) c = .ok d c' →
      d.finish c'.position = .error ⟨.invalidDataIndex index, offset⟩ →
        Module.compile options binary = .error ⟨.invalidDataIndex index, offset⟩ ∧
        ∃ ctx fuel s c c1 i, Decode.Runs options binary (Decode.instructions ctx (fuel + 1) s) c ∧
          Decode.instr c = .ok i c1 ∧ i.dataIndex? = some index ∧ c.position = offset) := by
  refine ⟨fun e he => ?_, fun d kind body c' e hruns hfail => ?_,
    fun ctx fuel s c hruns => ⟨fun c1 i fault hinstr hstep => ?_, fun c1 e hinstr => ⟨?_, ?_⟩⟩,
    fun d c c' index offset hheader hsections hfinish => ⟨?_, ?_⟩⟩
  · unfold Module.compile at he
    cases hmodule : Decode.module options (.ofBytes binary 0) with
    | ok m c =>
      rw [hmodule] at he
      cases he
    | error e' c =>
      rw [hmodule] at he
      cases he
      have hbounds := (Decode.relocates_module (CodeRelation.respected_same options)
        (Draft.relocated_empty options)).offset_mem hmodule
      have hsize : (Cursor.ofBytes binary 0).position + (Cursor.ofBytes binary 0).remaining =
          binary.size := Nat.zero_add _
      exact hsize ▸ hbounds.2
  · exact ⟨hruns.compile_eq_error hfail, d.offset_of_readWhole hfail⟩
  · exact hruns.compile_eq_error (Decode.instructions_of_step fuel hinstr hstep)
  · exact hruns.compile_eq_error (Decode.instructions_of_instr fuel hinstr)
  · exact Decode.Charges.instr hinstr
  · have hposition : Decode.position c' = .ok c'.position c' := rfl
    have hget : (get : Decode Cursor) c = .ok c c := rfl
    rw [Module.compile, Decode.module, bind_of_ok hheader, bind_of_ok hget, bind_of_ok hsections,
      bind_of_ok hposition, hfinish]
    rfl
  · have hempty : (Draft.empty options).Notes options binary := by
      intro ref href
      cases Array.not_mem_empty ref href
    exact Decode.runsTo_sections _ hempty c d c' (.sections hheader) hsections (index, offset)
      (Draft.mem_dataRefs_of_finish hfinish)

def droppingNone : ByteArray :=
  ⟨#[0x00, 0x61, 0x73, 0x6D, 0x01, 0x00, 0x00, 0x00, 0x01, 0x04, 0x01, 0x60, 0x00, 0x00,
    0x03, 0x02, 0x01, 0x00, 0x0A, 0x07, 0x01, 0x05, 0x00, 0xFC, 0x09, 0x00, 0x0B]⟩

/-- Dropping a segment that does not exist. -/
theorem Module.error_offsets_droppingNone :
    Module.compile .standard droppingNone = .error ⟨.invalidDataIndex 0, 23⟩ ∧
      ∃ ctx fuel s c c1 i, Decode.Runs .standard droppingNone
        (Decode.instructions ctx (fuel + 1) s) c ∧
        Decode.instr c = .ok i c1 ∧ i.dataIndex? = some 0 ∧ c.position = 23 := by
  have hfault : (match Decode.header (.ofBytes droppingNone 0) with
      | .ok () c =>
        match Decode.sections .standard c.remaining (0, .empty .standard) c with
        | .ok d c' => (d.finish c'.position).map fun _ => ()
        | .error _ _ => .ok ()
      | .error _ _ => .ok ()) = .error ⟨.invalidDataIndex 0, 23⟩ := by
    decide +kernel
  split at hfault
  · next c hheader =>
    split at hfault
    · next d c' hsections =>
      cases hfinish : d.finish c'.position with
      | ok m =>
        rw [hfinish] at hfault
        cases hfault
      | error e =>
        rw [hfinish] at hfault
        cases hfault
        exact (error_offsets .standard droppingNone).2.2.2 d c c' 0 23 hheader hsections hfinish
    · cases hfault
  · cases hfault

end Wasm
