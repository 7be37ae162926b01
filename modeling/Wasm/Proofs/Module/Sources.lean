import Wasm.Proofs.Module.Acceptance

/-! # The function bodies of a binary

`Body.inBinary` reads them without judging (`Module.lowered_of_compile`). -/

namespace Wasm

open List

namespace Decode

/-- The instructions of a range.  Each takes a byte at least, so `fuel` is enough. -/
def instrs : Nat → Decode (List Instr)
  | 0 => pure []
  | fuel + 1 => do
    if ← isEmpty then
      pure []
    else
      let i ← instr
      return i :: (← instrs fuel)

/-- A body, in a range of its own. -/
def source : Decode Body := do
  let groups ← many (← u32) do return (← u32, ← valueType)
  match Code.ofInstrs? (← instrs (← get).remaining) with
  | some code => return ⟨groups, code⟩
  | none => throw (← get).endError

/-- Bodies behind their sizes. -/
def sources : Nat → Decode (List Body)
  | 0 => pure []
  | n + 1 => do
    let range ← sub (← u32)
    let body ← within range source
    return body :: (← sources n)

/-- The bodies in the code section, if there is one. -/
def sourceSections : Nat → List Body → Decode (List Body)
  | 0, bodies => pure bodies
  | fuel + 1, bodies => do
    if ← isEmpty then
      pure bodies
    else
      let id ← byte
      let range ← sub (← u32)
      if id = 10 then
        sourceSections fuel (← within range do sources (← u32))
      else
        sourceSections fuel bodies

end Decode

/-- The function bodies of a module binary. -/
def Body.inBinary (binary : ByteArray) : List Body :=
  let read : Decode (List Body) := do
    Decode.skip 8
    Decode.sourceSections (← get).remaining []
  match read (.ofBytes binary 0) with
  | .ok bodies _ => bodies
  | .error _ _ => []

theorem Section.ofId?_eq_code {id : UInt8} : ofId? id = some .code ↔ id = 10 := by
  have hid : ∀ n, n < 13 → [custom, type, imports, function, table, memory, global, exports, start,
      element, code, data, dataCount][n]? = some code → n = 10 := by
    decide
  constructor
  · intro h
    obtain ⟨hlt, -⟩ := List.getElem?_eq_some_iff.mp h
    exact UInt8.toNat_inj.mp (hid id.toNat hlt h)
  · rintro rfl
    rfl

namespace Decode

/-! ## Bodies -/

variable {c c' : Cursor} {fuel : Nat} {bodies : List Body} {bs : List UInt8}

theorem instrs_eq_ok {l : List Instr} (hfuel : c.remaining ≤ fuel) (h : Each Instr.Form l c.left) :
    ∃ c', instrs fuel c = .ok l c' := by
  generalize hleft : c.left = all at h
  induction h generalizing c fuel with
  | nil =>
    cases fuel with
    | zero => exact ⟨c, rfl⟩
    | succ fuel =>
      refine ⟨c, ?_⟩
      rw [instrs, bind_of_ok (show isEmpty c = .ok c.isEmpty c from rfl), c.isEmpty_iff.mpr hleft]
      rfl
  | @cons i l bs bs' hi _ ih =>
    have hpos := instr_form_length hi
    obtain ⟨c1, ho, hleft1⟩ := Cursor.exists_over hleft
    have hrem := ho.remaining_eq
    obtain ⟨fuel, rfl⟩ : ∃ k, fuel = k + 1 := ⟨fuel - 1, by omega⟩
    obtain ⟨c', hrest⟩ := @ih c1 fuel (by omega) hleft1
    have hne : c.isEmpty = false := by
      rw [Bool.eq_false_iff, Ne, c.isEmpty_iff, ← length_eq_zero_iff, c.length_left]
      omega
    refine ⟨c', ?_⟩
    rw [instrs, bind_of_ok (show isEmpty c = .ok c.isEmpty c from rfl), hne]
    exact (bind_of_ok ((Reads.instr c i c1).mpr ⟨bs, hi, ho⟩)).trans (bind_of_ok hrest)

theorem source_eq_ok {b : Body} (h : b.Form c.left) : ∃ c', source c = .ok b c' := by
  obtain ⟨bs0, bs1, bs2, hleft, hcount, hgroups, hl⟩ := h
  obtain ⟨c1, ho0, hleft1⟩ := Cursor.exists_over hleft
  obtain ⟨c2, ho1, hleft2⟩ := Cursor.exists_over hleft1
  obtain ⟨c', hinstrs⟩ := instrs_eq_ok (Nat.le_refl c2.remaining) (hleft2 ▸ hl)
  have hn := (Reads.u32 c b.groups.length c1).mpr ⟨bs0, hcount, ho0⟩
  have hmany := (Reads.group.many b.groups.length c1 b.groups c2).mpr ⟨bs1, ⟨rfl, hgroups⟩, ho1⟩
  have hcode := Code.ofInstrs?_eq_some.mpr (rfl : b.code.instrs ++ [.endScope] = _)
  refine ⟨c', ?_⟩
  rw [source, bind_of_ok hn, bind_of_ok hmany, bind_of_ok (get_apply c2), bind_of_ok hinstrs, hcode]
  rfl

theorem sources_eq_ok (h : Each (Sized Body.Form) bodies bs) (ho : c.Over bs c') :
    sources bodies.length c = .ok bodies c' := by
  induction h generalizing c with
  | nil =>
    rw [ho.unique (.refl _)]
    rfl
  | @cons body bodies bs bs' hb _ ih =>
    obtain ⟨bs1, bs2, rfl, hsize, hform⟩ := hb
    obtain ⟨c1, ho1, ho2⟩ := ho.split
    obtain ⟨c2, hox, hoy⟩ := ho1.split
    obtain ⟨range, hsub, hleft⟩ := exists_sub hoy
    obtain ⟨c3, hsource⟩ := source_eq_ok (hleft ▸ hform)
    have hwithin : within range source c1 = .ok body c1 := within_eq_ok.mpr ⟨⟨c3, hsource⟩, rfl⟩
    rw [length_cons, sources, bind_of_ok ((Reads.u32 _ _ _).mpr ⟨bs1, hsize, hox⟩),
      bind_of_ok hsub, bind_of_ok hwithin, bind_of_ok (ih ho2)]
    rfl

theorem sourceSections_eq_ok {frames : List (Section × List UInt8)}
    (hframes : Each Section.Frame frames bs) {found : List Body}
    (hcode : ∀ content, (.code, content) ∈ frames → Vec (Sized Body.Form) content bodies)
    (hfound : found = bodies ∨ ∃ content, (.code, content) ∈ frames) (ho : c.Over bs c')
    (hend : c'.left = []) (hfuel : c.remaining ≤ fuel) :
    sourceSections fuel found c = .ok bodies c' := by
  induction hframes generalizing found c fuel with
  | nil =>
    obtain rfl := ho.unique (.refl c)
    obtain rfl | ⟨_, hmem⟩ := hfound
    · cases fuel with
      | zero => rfl
      | succ fuel =>
        rw [sourceSections, bind_of_ok (show isEmpty c' = .ok c'.isEmpty c' from rfl),
          c'.isEmpty_iff.mpr hend]
        rfl
    · cases hmem
  | @cons frame frames bs1 bs2 hframe _ ih =>
    obtain ⟨kind, content⟩ := frame
    obtain ⟨c1, ho1, ho2⟩ := ho.split
    have hless := hframe.remaining_lt ho1
    obtain ⟨fuel, rfl⟩ : ∃ n, fuel = n + 1 := ⟨fuel - 1, by omega⟩
    have hne : c.isEmpty = false := by
      rw [Bool.eq_false_iff, Ne, c.isEmpty_iff, ← length_eq_zero_iff, c.length_left]
      omega
    obtain ⟨id, size, rfl, hid, hsize⟩ := hframe
    obtain ⟨range, c2, c3, hbyte, hu, hsub, hleft, -⟩ := exists_frame ⟨size, rfl, hsize⟩ ho1
    have hrest : ∀ {found : List Body}, (found = bodies ∨ ∃ content, (.code, content) ∈ frames) →
        sourceSections fuel found c1 = .ok bodies c' := fun hfound =>
      ih (fun content hf => hcode content (.tail _ hf)) hfound ho2 (by omega)
    rw [sourceSections, bind_of_ok (show isEmpty c = .ok c.isEmpty c from rfl), hne]
    show (do
      let id ← byte
      let range ← sub (← u32)
      if id = 10 then
        sourceSections fuel (← within range do sources (← u32))
      else
        sourceSections fuel found) c = _
    rw [bind_of_ok hbyte, bind_of_ok hu, bind_of_ok hsub]
    by_cases hkind : kind = .code
    · -- the bodies are those of this section
      subst hkind
      obtain ⟨bs3, bs4, rfl, hlen, heach⟩ := hcode content (.head _)
      obtain ⟨c4, ho3, hleft4⟩ := Cursor.exists_over hleft
      obtain ⟨c5, ho4⟩ := c4.exists_over_left
      have hread : (do sources (← u32)) range = .ok bodies c5 :=
        (bind_of_ok ((Reads.u32 _ _ _).mpr ⟨bs3, hlen, ho3⟩)).trans
          (sources_eq_ok heach (hleft4 ▸ ho4))
      rw [if_pos (Section.ofId?_eq_code.mp hid), bind_of_ok (within_eq_ok.mpr ⟨⟨c5, hread⟩, rfl⟩)]
      exact hrest (.inl rfl)
    · have hid' : id ≠ 10 := fun heq =>
        hkind (Option.some.inj ((Section.ofId?_eq_code.mpr heq).symm.trans hid)).symm
      rw [if_neg hid']
      refine hrest (hfound.imp_right ?_)
      rintro ⟨content', hmem⟩
      obtain heq | hmem := mem_cons.mp hmem
      · cases heq
        exact absurd rfl hkind
      · exact ⟨content', hmem⟩

end Decode

/-! ## Lowered modules -/

/-- The functions of a module come from bodies. -/
structure Module.Lowered (m : Module) (bodies : List Body) : Prop where
  length : bodies.length = m.functions.size
  compiles : ∀ (i : Nat) (body : Body) (func : CompiledFunction), bodies[i]? = some body →
    m.functions[i]? = some func → ∃ (ctx : BodyContext) (accessors accessors' : Accessors),
      ctx.spaces = m.spaces ∧
      body.Compiles ctx (m.spaces.importedFuncs + i) accessors func accessors' ∧
      accessors'.keys.toList <+: m.accessors.keys.toList

theorem Contents.Written.inBinary {contents : Contents} {binary : ByteArray}
    (h : contents.Written binary.data.toList) : Body.inBinary binary = contents.bodies := by
  obtain ⟨frames, bs, hbytes, hframes, -, hforms⟩ := h
  obtain ⟨hcode, habsent⟩ := hforms .code nofun
  have hfound : [] = contents.bodies ∨ ∃ content, (.code, content) ∈ frames := by
    by_cases hf : ∃ content, (.code, content) ∈ frames
    · exact .inr hf
    · exact .inl (habsent fun content hc => hf ⟨content, hc⟩).1.symm
  obtain ⟨c1, ho, hleft⟩ := Cursor.exists_over ((Cursor.left_ofBytes binary 0).trans hbytes)
  obtain ⟨c', ho'⟩ := c1.exists_over_left
  have hend : c'.left = [] :=
    append_cancel_left (ho'.left.symm.trans (append_nil _).symm)
  rw [hleft] at ho'
  have hlen : 8 ≤ (Cursor.ofBytes binary 0).remaining := by
    rw [ho.remaining_eq]
    exact Nat.le_add_right _ _
  have hskip : Decode.skip 8 (.ofBytes binary 0) = .ok () c1 := by
    have hover := Cursor.over_advance _ hlen
    rw [ho.left, take_left' (show Module.headerBytes.length = 8 from rfl)] at hover
    rw [Decode.skip, dif_pos hlen, hover.unique ho]
  unfold Body.inBinary
  dsimp only
  rw [bind_of_ok hskip, bind_of_ok (get_apply c1),
    Decode.sourceSections_eq_ok hframes hcode hfound ho' hend (Nat.le_refl _)]

theorem Module.lowered_of_compile {options : CompileOptions} {binary : ByteArray} {m : Module}
    (h : compile options binary = .ok m) : m.Lowered (Body.inBinary binary) := by
  obtain ⟨contents, hwritten, hvalid, rfl⟩ := Contents.exists_of_compile h
  have hlowered := (hvalid.judged .code).2
  rw [hwritten.inBinary]
  refine ⟨hlowered.length.symm, fun i body func hb hf => ?_⟩
  obtain ⟨body', hb', before, after, hc, hkeys⟩ :=
    hlowered.compiles ((getElem?_toArray).symm.trans hf)
  cases hb.symm.trans hb'
  exact ⟨_, before, after, rfl, hc, hkeys⟩

end Wasm
