import Wasm.Proofs.Module.Contents

/-! # Which binaries are modules

Those in the grammar (`Contents.Written`) with valid entries (`Contents.Valid`). -/

namespace Wasm

open List
open Decode (Vec Sized Reads Each)

variable {bs content : List UInt8} {frames : List (Section × List UInt8)} {c c' : Cursor}
  {kind : Section} {rank : Nat} {options : CompileOptions} {d' : Draft} {m : Contents}

variable {d : Draft} {ctx : BodyContext} {count index : Nat}

/-! ## Header and frames -/

def Module.headerBytes : List UInt8 := Decode.magic ++ [1, 0, 0, 0]

theorem LittleEndian.toNat_eq_one (hlen : bs.length = 4) : toNat bs = 1 ↔ bs = [1, 0, 0, 0] := by
  match bs, hlen with
  | [a, b, c, d], _ =>
    simp only [toNat, List.cons.injEq, and_true, ← UInt8.toNat_inj]
    show _ ↔ a.toNat = 1 ∧ b.toNat = 0 ∧ c.toNat = 0 ∧ d.toNat = 0
    omega

theorem Decode.Reads.header : Reads header fun bs _ => bs = Module.headerBytes := by
  refine Reads.position fun at_ => ?_
  refine ((Reads.bytes 4).bind fun first => Reads.refuse (C := first.toList ≠ magic) _ _
    (Reads.position fun versionAt => (Reads.bytes 4).bind fun second =>
      (Reads.fail (α := Unit) _ _).ite (P := LittleEndian.toNat second.toList ≠ 1)
        (Reads.pure ()))).congr fun bs found => ?_
  constructor
  · rintro ⟨_, _, first, rfl, ⟨rfl, hlen⟩, hmagic, _, _, second, rfl, ⟨rfl, hlen'⟩,
      h | ⟨hone, rfl, -⟩⟩
    · exact h.2.elim
    · rw [toList_eq_data, Decidable.not_not] at hmagic
      rw [toList_eq_data, Decidable.not_not, LittleEndian.toNat_eq_one hlen'] at hone
      rw [hmagic, hone]
      rfl
  · rintro rfl
    refine ⟨magic, _, ⟨magic.toArray⟩, rfl, ⟨rfl, rfl⟩, ?_, [1, 0, 0, 0], [], ⟨#[1, 0, 0, 0]⟩, rfl,
      ⟨rfl, rfl⟩, .inr ⟨?_, rfl, rfl⟩⟩
    · rw [toList_eq_data]
      exact fun h => h rfl
    · rw [toList_eq_data]
      exact fun h => h rfl

namespace Section

/-- The written forms of a section with any id. -/
def RawFrame (bs : List UInt8) (frame : UInt8 × List UInt8) : Prop :=
  ∃ size, bs = frame.1 :: (size ++ frame.2) ∧ Leb128.Unsigned 32 size frame.2.length

theorem RawFrame.ne_nil {frame : UInt8 × List UInt8} (h : RawFrame bs frame) : bs ≠ [] := by
  obtain ⟨size, rfl, -⟩ := h
  exact cons_ne_nil _ _

/-- A section: its id, its size and its body. -/
def Frame (bs : List UInt8) (frame : Section × List UInt8) : Prop :=
  ∃ id bs1, bs = id :: (bs1 ++ frame.2) ∧ ofId? id = some frame.1 ∧
    Leb128.Unsigned 32 bs1 frame.2.length

theorem Frame.remaining_lt {frame : Section × List UInt8} (h : Frame bs frame) (ho : c.Over bs c') :
    c'.remaining < c.remaining := by
  obtain ⟨id, bs1, rfl, -, -⟩ := h
  rw [← c.length_left, ← c'.length_left, ho.left, length_append, length_cons]
  omega

/-- The ranks of the sections that are not custom. -/
def ranks (frames : List (Section × List UInt8)) : List Nat :=
  (frames.filter fun frame => frame.1 ≠ .custom).map fun frame => frame.1.rank

theorem rank_injective {kind' : Section} (h : kind.rank = kind'.rank) : kind = kind' := by
  cases kind <;> cases kind' <;> first | rfl | exact nomatch h

theorem rank_pos (h : kind ≠ .custom) : 0 < kind.rank := by
  cases kind <;> first | decide | exact absurd rfl h

theorem ranks_pos (h : rank ∈ ranks frames) : 0 < rank := by
  obtain ⟨frame, hf, rfl⟩ := mem_map.mp h
  exact rank_pos (by simpa using (mem_filter.mp hf).2)

theorem ranks_cons (h : kind ≠ .custom) (content : List UInt8)
    (frames : List (Section × List UInt8)) :
    ranks ((kind, content) :: frames) = kind.rank :: ranks frames := by
  unfold ranks
  rw [filter_cons_of_pos (by simpa using h), map_cons]

theorem rank_mem_ranks (h : kind ≠ .custom) (hf : (kind, content) ∈ frames) :
    kind.rank ∈ ranks frames := by
  refine mem_map.mpr ⟨(kind, content), mem_filter.mpr ⟨hf, ?_⟩, rfl⟩
  simpa using h

end Section

namespace Decode

theorem position_of_sub {n : Nat} {range : Cursor} (h : sub n c = .ok range c') :
    range.position = c.position := by
  unfold sub at h
  split at h
  · cases h
    rfl
  · cases h

variable {id : UInt8}

theorem exists_frame (hframe : Section.RawFrame bs (id, content)) (ho : c.Over bs c') :
    ∃ range c1 c2 : Cursor, byte c = .ok id c1 ∧ u32 c1 = .ok content.length c2 ∧
      sub content.length c2 = .ok range c' ∧ range.left = content ∧ c.position ≤ range.position ∧
      range.position + content.length = c'.position := by
  obtain ⟨size, rfl, hsize⟩ := hframe
  obtain ⟨c1, ho1, ho⟩ := (show c.Over ([id] ++ (size ++ content)) c' from ho).split
  obtain ⟨c2, ho2, ho3⟩ := ho.split
  obtain ⟨range, hsub, hleft⟩ := exists_sub ho3
  have hrange := position_of_sub hsub
  have h1 := ho1.position_eq
  have h2 := ho2.position_eq
  have h3 := ho3.position_eq
  exact ⟨range, c1, c2, (Reads.byte _ _ _).mpr ⟨[id], rfl, ho1⟩,
    (Reads.u32 _ _ _).mpr ⟨size, hsize, ho2⟩, hsub, hleft, by omega, by omega⟩

theorem oneSection_of_over (options : CompileOptions) (state : Nat × Draft)
    (hframe : Section.RawFrame bs (id, content)) (ho : c.Over bs c') :
    ∃ c1 range : Cursor, range.left = content ∧ c.position ≤ range.position ∧
      range.position + content.length = c'.position ∧
      oneSection options state c = match Section.ofId? id with
        | none => .error ⟨.unknownSection id, c.position⟩ c1
        | some kind =>
          if kind = .custom then .ok state c'
          else takeSection options state c.position id kind range c' := by
  obtain ⟨range, c1, c2, hbyte, hu, hsub, hleft, hstart, hstop⟩ := exists_frame hframe ho
  have hpos : position c = .ok c.position c := rfl
  refine ⟨c1, range, hleft, hstart, hstop, ?_⟩
  rw [oneSection_eq, bind_of_ok hpos, bind_of_ok hbyte]
  cases Section.ofId? id with
  | none => rfl
  | some kind =>
    rw [framedSection, bind_of_ok hu, bind_of_ok hsub]
    dsimp only
    split <;> rfl

theorem oneSection_custom {state : Nat × Draft} (hframe : Section.Frame bs (.custom, content))
    (ho : c.Over bs c') : oneSection options state c = .ok state c' := by
  obtain ⟨id, size, rfl, hid, hsize⟩ := hframe
  obtain ⟨c1, range, -, -, -, hone⟩ := oneSection_of_over options state ⟨size, rfl, hsize⟩ ho
  rw [hone, hid]
  rfl

theorem oneSection_of_read {P : Draft → Prop} (hframe : Section.Frame bs (kind, content))
    (ho : c.Over bs c') (hcustom : kind ≠ .custom) (hrank : rank < kind.rank)
    (hread : ∀ range : Cursor, range.left = content → ∃ d' c1, P d' ∧
      d.readSection options kind range = .ok d' c1 ∧ c1.left = []) :
    ∃ d', P d' ∧ oneSection options (rank, d) c = .ok (kind.rank, d') c' := by
  obtain ⟨id, size, rfl, hid, hsize⟩ := hframe
  obtain ⟨c1, range, hleft, -, -, hone⟩ :=
    oneSection_of_over options (rank, d) ⟨size, rfl, hsize⟩ ho
  obtain ⟨d', c2, hP, hsection, hend⟩ := hread range hleft
  refine ⟨d', hP, ?_⟩
  rw [hone, hid]
  dsimp only
  rw [if_neg hcustom]
  exact takeSection_eq_ok.mpr ⟨hrank, rfl, rfl, c2, hsection, c2.isEmpty_iff.mpr hend⟩

theorem frame_of_oneSection {rank' : Nat}
    (h : oneSection options (rank, d) c = .ok (rank', d') c') :
    ∃ bs kind content, Section.Frame bs (kind, content) ∧ c.Over bs c' ∧
      ((kind = .custom ∧ rank' = rank ∧ d' = d) ∨
        (kind ≠ .custom ∧ rank < kind.rank ∧ rank' = kind.rank ∧
          ∃ range c1 : Cursor, range.left = content ∧
            d.readSection options kind range = .ok d' c1 ∧ c1.left = [])) := by
  rw [oneSection_eq] at h
  obtain ⟨at_, _, hpos, h⟩ := bind_eq_ok.mp h
  cases hpos
  obtain ⟨id, c1, hbyte, h⟩ := bind_eq_ok.mp h
  obtain ⟨_, rfl, ho1⟩ := (Reads.byte _ _ _).mp hbyte
  cases hid : Section.ofId? id with
  | none =>
    rw [hid] at h
    cases h
  | some kind =>
    rw [hid] at h
    obtain ⟨n, c2, hu, h2⟩ := bind_eq_ok.mp h
    obtain ⟨range, c3, hsub, h3⟩ := bind_eq_ok.mp h2
    obtain ⟨size, hsize, ho2⟩ := (Reads.u32 _ _ _).mp hu
    obtain ⟨ho3, rfl⟩ := over_of_sub hsub
    have hframe : Section.Frame ([id] ++ (size ++ range.left)) (kind, range.left) :=
      ⟨id, size, rfl, hid, hsize⟩
    have ho := ho1.trans (ho2.trans ho3)
    by_cases hcustom : kind = .custom
    · rw [if_pos hcustom] at h3
      cases h3
      exact ⟨_, kind, _, hframe, ho, .inl ⟨hcustom, rfl, rfl⟩⟩
    · rw [if_neg hcustom] at h3
      obtain ⟨hrank, rfl, rfl, c4, hread, hempty⟩ := takeSection_eq_ok.mp h3
      exact ⟨_, kind, _, hframe, ho, .inr ⟨hcustom, hrank, rfl, range, c4, rfl, hread,
        c4.isEmpty_iff.mp hempty⟩⟩

theorem sections_of_empty (options : CompileOptions) (fuel : Nat) (state : Nat × Draft)
    (h : c.left = []) : sections options fuel state c = .ok state.2 c := by
  cases fuel with
  | zero => rfl
  | succ fuel =>
    rw [sections, bind_of_ok (show isEmpty c = .ok c.isEmpty c from rfl), c.isEmpty_iff.mpr h]
    rfl

theorem sections_of_bytes (options : CompileOptions) (fuel : Nat) (state : Nat × Draft)
    (h : c.left ≠ []) : sections options (fuel + 1) state c =
      (oneSection options state >>= sections options fuel) c := by
  have hempty : c.isEmpty = false := Bool.eq_false_iff.mpr fun he => h (c.isEmpty_iff.mp he)
  rw [sections, bind_of_ok (show isEmpty c = .ok c.isEmpty c from rfl), hempty]
  rfl

end Decode

/-! ## Filling contents section by section -/

namespace Contents

variable {m' m'' : Contents} {k : Section}

theorem Same.refl (m : Contents) (kind : Section) : m.Same m kind := by
  cases kind <;> first | rfl | trivial

theorem Same.symm (h : m.Same m' kind) : m'.Same m kind := by
  cases kind <;> first | exact Eq.symm h | trivial | exact ⟨h.1.symm, h.2.1.symm, h.2.2.symm⟩

theorem Same.trans (h : m.Same m' kind) (h' : m'.Same m'' kind) : m.Same m'' kind := by
  cases kind <;> first
    | exact Eq.trans h h'
    | trivial
    | exact ⟨h.1.trans h'.1, h.2.1.trans h'.2.1, h.2.2.trans h'.2.2⟩

theorem same_set (m m' : Contents) (kind : Section) : (m.set m' kind).Same m' kind := by
  cases kind <;> first | rfl | trivial

theorem same_set_of_ne (m m' : Contents) (h : k ≠ kind) : (m.set m' kind).Same m k := by
  cases kind <;> cases k <;> first | rfl | trivial

theorem eq_of_same (h : ∀ kind, m.Same m' kind) : m = m' := by
  obtain ⟨hb, hf, ha⟩ := h .code
  have h1 := h .type
  have h2 := h .imports
  have h3 := h .function
  have h4 := h .table
  have h5 := h .memory
  have h6 := h .global
  have h7 := h .exports
  have h8 := h .start
  have h9 := h .element
  have h10 := h .dataCount
  have h11 := h .data
  cases m
  cases m'
  simp_all [Same]

variable {fuel : Nat}

theorem SectionForm.congr (h : m.Same m' kind) (hf : m.SectionForm bs kind) :
    m'.SectionForm bs kind := by
  cases kind <;> simp_all only [Same, SectionForm]

theorem spaces_congr (h : ∀ k : Section, k.rank ≤ Section.global.rank → m.Same m' k) :
    m.spaces = m'.spaces := by
  have htypes : m.types = m'.types := h .type (by decide)
  have himports : m.imports = m'.imports := h .imports (by decide)
  have hfuncs : m.funcs = m'.funcs := h .function (by decide)
  have htables : m.tables = m'.tables := h .table (by decide)
  have hmemories : m.memories = m'.memories := h .memory (by decide)
  have hglobals : m.globals = m'.globals := h .global (by decide)
  simp only [spaces, descs, htypes, himports, hfuncs, htables, hmemories, hglobals]

theorem Judged.congr (h : ∀ k : Section, k.rank ≤ kind.rank → m.Same m' k)
    (hj : m.Judged options kind) : m'.Judged options kind := by
  have hspaces : Section.global.rank ≤ kind.rank → m.spaces = m'.spaces :=
    fun hle => spaces_congr fun k hk => h k (Nat.le_trans hk hle)
  cases kind with
  | custom | type | dataCount => trivial
  | imports =>
    have htypes : m.types = m'.types := h .type (by decide)
    have himports : m.imports = m'.imports := h .imports (by decide)
    simpa only [Judged, htypes, himports] using hj
  | function =>
    have htypes : m.types = m'.types := h .type (by decide)
    have hfuncs : m.funcs = m'.funcs := h .function (by decide)
    simpa only [Judged, htypes, hfuncs] using hj
  | table =>
    have htables : m.tables = m'.tables := h .table (by decide)
    simpa only [Judged, htables] using hj
  | memory =>
    have hmemories : m.memories = m'.memories := h .memory (by decide)
    simpa only [Judged, hmemories] using hj
  | global =>
    have hglobals : m.globals = m'.globals := h .global (by decide)
    simpa only [Judged, hspaces (by decide), hglobals] using hj
  | exports =>
    have hexports : m.exports = m'.exports := h .exports (by decide)
    simpa only [Judged, hspaces (by decide), hexports] using hj
  | start =>
    have hstart : m.start = m'.start := h .start (by decide)
    simpa only [Judged, hspaces (by decide), hstart] using hj
  | element =>
    have helements : m.elements = m'.elements := h .element (by decide)
    simpa only [Judged, hspaces (by decide), helements] using hj
  | code =>
    obtain ⟨hbodies, hfunctions, haccessors⟩ := h .code (by decide)
    have hfuncs : m.funcs = m'.funcs := h .function (by decide)
    have helements : m.elements = m'.elements := h .element (by decide)
    have hcount : m.dataCount = m'.dataCount := h .dataCount (by decide)
    simpa only [Judged, context, hspaces (by decide), helements, hcount, hfuncs, hbodies,
      hfunctions, haccessors] using hj
  | data =>
    have hdata : m.data = m'.data := h .data (by decide)
    have hcount : m.dataCount = m'.dataCount := h .dataCount (by decide)
    simpa only [Judged, hspaces (by decide), hdata, hcount] using hj

/-- Frames fill contents up to a rank. -/
structure Fills (options : CompileOptions) (rank : Nat) (m : Contents)
    (frames : List (Section × List UInt8)) (m' : Contents) : Prop where
  ordered : (rank :: Section.ranks frames).Pairwise (· < ·)
  kept : ∀ k : Section, k.rank ≤ rank → m.Same m' k
  read : ∀ kind content, kind ≠ .custom → (kind, content) ∈ frames →
    m'.SectionForm content kind ∧ m'.Judged options kind
  absent : ∀ kind : Section, rank < kind.rank → (∀ content, (kind, content) ∉ frames) →
    m'.Absent kind

def EndsAt (rank : Nat) (m : Contents) : Prop := ∀ kind : Section, rank < kind.rank → m.Absent kind

theorem EndsAt.absent (h : m.EndsAt rank) (hrank : rank < kind.rank) (k : Section)
    (hk : kind.rank ≤ k.rank) : m.Absent k :=
  h k (Nat.lt_of_lt_of_le hrank hk)

theorem EndsAt.set (h : m.EndsAt rank) (hrank : rank < kind.rank) :
    (m.set m' kind).EndsAt kind.rank := by
  intro k hk
  have hne : k ≠ kind := by
    rintro rfl
    exact Nat.lt_irrefl _ hk
  exact (same_set_of_ne m m' hne).trans (h k (Nat.lt_trans hrank hk))

namespace Fills

theorem nil (h : m.EndsAt rank) : Fills options rank m [] m where
  ordered := pairwise_singleton _ _
  kept k _ := .refl m k
  read := nofun
  absent kind hrank _ := h kind hrank

theorem custom_iff : Fills options rank m ((.custom, content) :: frames) m' ↔
    Fills options rank m frames m' := by
  constructor
  · intro h
    refine ⟨h.ordered, h.kept, fun kind content' hk hf => h.read kind content' hk (.tail _ hf), ?_⟩
    intro kind hrank hnot
    refine h.absent kind hrank fun content' hf => ?_
    obtain heq | hf := mem_cons.mp hf
    · cases heq
      cases hrank
    · exact hnot content' hf
  · intro h
    refine ⟨h.ordered, h.kept, fun kind content' hk hf => ?_, fun kind hrank hnot => ?_⟩
    · obtain heq | hf := mem_cons.mp hf
      · cases heq
        exact absurd rfl hk
      · exact h.read kind content' hk hf
    · exact h.absent kind hrank fun content' hf => hnot content' (.tail _ hf)

theorem cons (h : Fills options kind.rank (m.set m'' kind) frames m') (hends : m.EndsAt rank)
    (hcustom : kind ≠ .custom) (hrank : rank < kind.rank)
    (hform : (m.set m'' kind).SectionForm content kind)
    (hj : (m.set m'' kind).Judged options kind) :
    Fills options rank m ((kind, content) :: frames) m' where
  ordered := by
    rw [Section.ranks_cons hcustom, pairwise_cons]
    refine ⟨fun r hr => ?_, h.ordered⟩
    obtain rfl | hr := mem_cons.mp hr
    · exact hrank
    · exact Nat.lt_trans hrank (rel_of_pairwise_cons h.ordered hr)
  kept k hk := by
    have hne : k ≠ kind := by
      rintro rfl
      exact absurd hrank (Nat.not_lt.mpr hk)
    exact (same_set_of_ne m m'' hne).symm.trans (h.kept k (Nat.le_trans hk (Nat.le_of_lt hrank)))
  read := by
    intro k content' hk hf
    obtain heq | hf := mem_cons.mp hf
    · cases heq
      exact ⟨hform.congr (h.kept kind (Nat.le_refl _)), hj.congr h.kept⟩
    · exact h.read k content' hk hf
  absent := by
    intro k hk hnot
    rcases Nat.lt_trichotomy k.rank kind.rank with hlt | heq | hgt
    · have hne : k ≠ kind := by
        rintro rfl
        exact Nat.lt_irrefl _ hlt
      exact (h.kept k (Nat.le_of_lt hlt)).symm.trans ((same_set_of_ne m m'' hne).trans (hends k hk))
    · cases Section.rank_injective heq
      exact absurd (mem_cons_self ..) (hnot content)
    · exact h.absent k hgt fun content' hf => hnot content' (.tail _ hf)

theorem of_cons (h : Fills options rank m ((kind, content) :: frames) m') (hends : m.EndsAt rank)
    (hcustom : kind ≠ .custom) :
    rank < kind.rank ∧ (m.set m' kind).SectionForm content kind ∧
      (m.set m' kind).Judged options kind ∧ Fills options kind.rank (m.set m' kind) frames m' := by
  have hordered := h.ordered
  rw [Section.ranks_cons hcustom] at hordered
  obtain ⟨hfirst, hrest⟩ := pairwise_cons.mp hordered
  have hrank : rank < kind.rank := hfirst _ (mem_cons_self ..)
  -- the sections in between are missing on both sides
  have hkept : ∀ k : Section, k.rank ≤ kind.rank → (m.set m' kind).Same m' k := by
    intro k hk
    by_cases hkind : k = kind
    · subst hkind
      exact same_set m m' k
    · refine (same_set_of_ne m m' hkind).trans ?_
      by_cases hle : k.rank ≤ rank
      · exact h.kept k hle
      · have hlt : rank < k.rank := Nat.lt_of_not_le hle
        refine (hends k hlt).trans (h.absent k hlt fun content' hf => ?_).symm
        obtain heq | hf := mem_cons.mp hf
        · cases heq
          exact hkind rfl
        · have hk0 : k ≠ .custom := by
            rintro rfl
            cases hlt
          exact absurd (rel_of_pairwise_cons hrest (Section.rank_mem_ranks hk0 hf))
            (Nat.not_lt.mpr hk)
  obtain ⟨hform, hj⟩ := h.read kind content hcustom (mem_cons_self ..)
  refine ⟨hrank, hform.congr (same_set m m' kind).symm,
    hj.congr fun k hk => (hkept k hk).symm, hrest, hkept, fun k content' hk hf => ?_,
      fun k hk hnot => ?_⟩
  · exact h.read k content' hk (.tail _ hf)
  · refine h.absent k (Nat.lt_trans hrank hk) fun content' hf => ?_
    obtain heq | hf := mem_cons.mp hf
    · cases heq
      exact Nat.lt_irrefl _ hk
    · exact hnot content' hf

theorem eq_of_nil (h : Fills options rank m [] m') (hends : m.EndsAt rank) : m = m' := by
  refine eq_of_same fun kind => ?_
  by_cases hle : kind.rank ≤ rank
  · exact h.kept kind hle
  · have hlt : rank < kind.rank := Nat.lt_of_not_le hle
    exact (hends kind hlt).trans (h.absent kind hlt fun _ hf => nomatch hf).symm

end Fills

/-! ## All sections -/

def seenBehind (seen : Bool) (frames : List (Section × List UInt8)) : Bool :=
  frames.foldl (fun seen frame => seenAfter seen frame.1) seen

variable {seen : Bool}

theorem seenBehind_eq_true :
    seenBehind seen frames = true ↔ seen = true ∨ ∃ content, (.data, content) ∈ frames := by
  induction frames generalizing seen with
  | nil => simp [seenBehind]
  | cons frame frames ih =>
    obtain ⟨kind, content⟩ := frame
    rw [seenBehind, foldl_cons, ← seenBehind, ih]
    cases kind <;> simp [seenAfter]

theorem fills_of_sections (hfuel : c.remaining ≤ fuel) (hends : m.EndsAt rank)
    (hd : d.outline = m.outline options seen)
    (h : Decode.sections options fuel (rank, d) c = .ok d' c') :
    ∃ frames bs m', Each Section.Frame frames bs ∧ c.Over bs c' ∧ c'.left = [] ∧
      Fills options rank m frames m' ∧
        d'.outline = m'.outline options (seenBehind seen frames) := by
  induction fuel generalizing rank m seen d c with
  | zero =>
    cases h
    have hleft : c'.left = [] :=
      eq_nil_of_length_eq_zero (c'.length_left ▸ Nat.le_zero.mp hfuel)
    exact ⟨[], [], m, .nil, .refl c', hleft, .nil hends, hd⟩
  | succ fuel ih =>
    by_cases hleft : c.left = []
    · rw [Decode.sections_of_empty _ _ _ hleft] at h
      cases h
      exact ⟨[], [], m, .nil, .refl c', hleft, .nil hends, hd⟩
    rw [Decode.sections_of_bytes _ _ _ hleft] at h
    obtain ⟨⟨rank1, d1⟩, c1, hone, hrest⟩ := bind_eq_ok.mp h
    obtain ⟨bs1, kind, content, hframe, ho1, hcases⟩ := Decode.frame_of_oneSection hone
    have hless := hframe.remaining_lt ho1
    obtain ⟨rfl, rfl, rfl⟩ | ⟨hcustom, hrank, rfl, range, c2, hleft, hread, hend⟩ := hcases
    · obtain ⟨frames, bs, m', hframes, ho, hc', hfills, hd'⟩ := ih (by omega) hends hd hrest
      exact ⟨_, _, m', .cons hframe hframes, ho1.trans ho, hc', Fills.custom_iff.mpr hfills, hd'⟩
    · obtain ⟨bs2, ⟨m1, hform, hj, hd1⟩, ho2⟩ :=
        (shows_section hcustom (hends.absent hrank) hd _ _ _).mp ⟨d1, hread, rfl⟩
      -- the section is read to its end
      have hcontent : bs2 = content := by
        rw [← hleft, ho2.left, hend, append_nil]
      subst hcontent
      obtain ⟨frames, bs, m', hframes, ho, hc', hfills, hd'⟩ :=
        ih (by omega) (hends.set hrank) hd1 hrest
      exact ⟨_, _, m', .cons hframe hframes, ho1.trans ho, hc',
        hfills.cons hends hcustom hrank hform hj, hd'⟩

theorem exists_sections (hfuel : c.remaining ≤ fuel) (hframes : Each Section.Frame frames bs)
    (ho : c.Over bs c') (hend : c'.left = []) (hends : m.EndsAt rank)
    (hd : d.outline = m.outline options seen) (hfills : Fills options rank m frames m') :
    ∃ d', Decode.sections options fuel (rank, d) c = .ok d' c' ∧
      d'.outline = m'.outline options (seenBehind seen frames) := by
  induction hframes generalizing fuel rank m seen d c with
  | nil =>
    obtain rfl := ho.unique (.refl c)
    cases hfills.eq_of_nil hends
    exact ⟨d, Decode.sections_of_empty _ _ _ hend, hd⟩
  | @cons frame frames bs1 bs2 hframe hframes ih =>
    obtain ⟨kind, content⟩ := frame
    obtain ⟨c1, ho1, ho2⟩ := ho.split
    have hless := hframe.remaining_lt ho1
    obtain ⟨fuel, rfl⟩ : ∃ n, fuel = n + 1 := ⟨fuel - 1, by omega⟩
    have hbytes : c.left ≠ [] := by
      rw [ne_eq, ← length_eq_zero_iff, c.length_left]
      omega
    rw [Decode.sections_of_bytes _ _ _ hbytes]
    by_cases hcustom : kind = .custom
    · subst hcustom
      rw [bind_of_ok (Decode.oneSection_custom hframe ho1)]
      exact ih (by omega) ho2 hends hd (Fills.custom_iff.mp hfills)
    · obtain ⟨hrank, hform, hj, hbehind⟩ := hfills.of_cons hends hcustom
      obtain ⟨d1, hd1, hone⟩ := Decode.oneSection_of_read
        (P := fun d => d.outline = (m.set m' kind).outline options (seenAfter seen kind))
        hframe ho1 hcustom hrank fun range hleft => by
          obtain ⟨stop, hrange⟩ := range.exists_over_left
          obtain ⟨d1, hread, hd1⟩ := (shows_section hcustom (hends.absent hrank) hd _ _ stop).mpr
            ⟨content, ⟨m', hform, hj, rfl⟩, hleft ▸ hrange⟩
          have hstop : stop.left = [] := append_cancel_left
            (hrange.left.symm.trans (append_nil _).symm)
          exact ⟨d1, stop, hd1, hread, hstop⟩
      rw [bind_of_ok hone]
      exact ih (by omega) ho2 (hends.set hrank) hd1 hbehind

/-! ## What is judged at the end -/

theorem finish_eq_ok {stop : Nat} {module : Module} (hd : d.outline = m.outline options seen) :
    d.finish stop = .ok module ↔
      m.functions.length = m.funcs.length ∧ (seen = false → m.dataCount.getD 0 = 0) ∧
        (∀ index ∈ Draft.noted (m.context options) m.bodies, index < m.data.length) ∧
        module = m.module options := by
  obtain ⟨refs, hnoted, rfl⟩ : ∃ refs : Array (Nat × Nat),
      refs.toList.map Prod.fst = Draft.noted (m.context options) m.bodies ∧
        d = m.draft options seen refs := ⟨d.dataRefs, congrArg Prod.snd hd, eq_draft hd⟩
  rw [← hnoted]
  have hcount : m.functions.toArray.size = m.spaces.definedFuncs ↔
      m.functions.length = m.funcs.length := by rw [m.definedFuncs_spaces]; rfl
  have hdata : ((!seen && m.dataCount.getD 0 ≠ 0) = true) ↔
      ¬ (seen = false → m.dataCount.getD 0 = 0) := by
    cases seen <;> simp
  have hrefs : (refs.find? fun ref => ref.1 ≥ m.data.toArray.size) = none ↔
      ∀ index ∈ refs.toList.map Prod.fst, index < m.data.length := by
    simp
  rw [← hcount, ← hrefs]
  show (if m.functions.toArray.size ≠ m.spaces.definedFuncs then _
    else if (!seen && m.dataCount.getD 0 ≠ 0) = true then _ else _) = Except.ok module ↔ _
  by_cases h1 : m.functions.toArray.size = m.spaces.definedFuncs
  · rw [if_neg (not_not_intro h1)]
    by_cases h2 : seen = false → m.dataCount.getD 0 = 0
    · rw [if_neg fun h => hdata.mp h h2]
      split
      · next hfind => exact ⟨fun h => (by cases h), fun h => by cases hfind.symm.trans h.2.2.1⟩
      · next hfind =>
        exact ⟨fun h => ⟨h1, h2, hfind, (Except.ok.inj h).symm⟩, fun h => h.2.2.2 ▸ rfl⟩
    · rw [if_pos (hdata.mpr h2)]
      exact ⟨fun h => (by cases h), fun h => absurd h.2.1 h2⟩
  · rw [if_pos h1]
    exact ⟨fun h => (by cases h), fun h => absurd h.1 h1⟩

/-- A header and frames of sections in order. -/
def Written (m : Contents) (bs : List UInt8) : Prop :=
  ∃ frames rest, bs = Module.headerBytes ++ rest ∧ Each Section.Frame frames rest ∧
    (Section.ranks frames).Pairwise (· < ·) ∧
    ∀ kind : Section, kind ≠ .custom →
      (∀ content, (kind, content) ∈ frames → m.SectionForm content kind) ∧
        ((∀ content, (kind, content) ∉ frames) → m.Absent kind)

/-- Each section passes, and data segments are there. -/
structure Valid (options : CompileOptions) (m : Contents) : Prop where
  judged : ∀ kind, m.Judged options kind
  dataIndices : ∀ body ∈ m.bodies, ∀ index ∈ body.dataIndices, index < m.data.length

theorem endsAt_empty : empty.EndsAt 0 := fun kind _ => .refl empty kind

theorem judged_of_absent (h : m.Absent kind) (hcode : kind = .code → m.funcs = [])
    (hdata : kind = .data → m.dataCount.getD 0 = 0) : m.Judged options kind := by
  cases kind with
  | custom | type | dataCount => trivial
  | imports => rw [Judged, show m.imports = [] from h]; nofun
  | function => rw [Judged, show m.funcs = [] from h]; nofun
  | table => rw [Judged, show m.tables = [] from h]; nofun
  | memory => rw [Judged, show m.memories = [] from h]; nofun
  | global => rw [Judged, show m.globals = [] from h]; nofun
  | exports => rw [Judged, show m.exports = [] from h]; exact ⟨.nil, nofun⟩
  | start => rw [Judged, show m.start = none from h]; nofun
  | element => rw [Judged, show m.elements = [] from h]; nofun
  | code =>
    obtain ⟨hbodies, hfunctions, haccessors⟩ := h
    rw [Judged, hbodies, hfunctions, haccessors, hcode rfl]
    exact ⟨rfl, .nil⟩
  | data =>
    rw [Judged, show m.data = [] from h]
    refine ⟨nofun, fun count hcount => ?_⟩
    have := hdata rfl
    rw [hcount] at this
    exact this

theorem fills_empty_iff : (Fills options 0 empty frames m ∧ m.functions.length = m.funcs.length ∧
        (seenBehind false frames = false → m.dataCount.getD 0 = 0)) ↔
      (Section.ranks frames).Pairwise (· < ·) ∧ (∀ kind : Section, kind ≠ .custom →
          (∀ content, (kind, content) ∈ frames → m.SectionForm content kind) ∧
            ((∀ content, (kind, content) ∉ frames) → m.Absent kind)) ∧
        ∀ kind, m.Judged options kind := by
  constructor
  · rintro ⟨h, hfunctions, hdata⟩
    have habsent : ∀ kind : Section, kind ≠ .custom → (∀ content, (kind, content) ∉ frames) →
        m.Absent kind := fun kind hkind => h.absent kind (Section.rank_pos hkind)
    refine ⟨(pairwise_cons.mp h.ordered).2, fun kind hkind =>
      ⟨fun content hf => (h.read kind content hkind hf).1, habsent kind hkind⟩, fun kind => ?_⟩
    by_cases hkind : kind = .custom
    · subst hkind
      trivial
    · by_cases hf : ∃ content, (kind, content) ∈ frames
      · obtain ⟨content, hf⟩ := hf
        exact (h.read kind content hkind hf).2
      · have hnot : ∀ content, (kind, content) ∉ frames := fun content hc => hf ⟨content, hc⟩
        refine judged_of_absent (habsent kind hkind hnot) ?_ ?_
        · rintro rfl
          have hnone : m.functions = [] := (habsent _ hkind hnot).2.1
          rw [hnone] at hfunctions
          exact eq_nil_of_length_eq_zero hfunctions.symm
        · rintro rfl
          refine hdata ((Bool.eq_false_iff).mpr fun hseen => ?_)
          obtain h | ⟨content, hc⟩ := seenBehind_eq_true.mp hseen
          · cases h
          · exact hnot content hc
  · rintro ⟨hordered, hwritten, hj⟩
    refine ⟨⟨?_, ?_, fun kind content hkind hf =>
      ⟨(hwritten kind hkind).1 content hf, hj kind⟩, ?_⟩,
      ?_, fun hseen => ?_⟩
    · exact pairwise_cons.mpr ⟨fun rank => Section.ranks_pos, hordered⟩
    · intro k hk
      have hcustom : k = .custom := by
        by_contra hne
        exact absurd (Section.rank_pos hne) (Nat.not_lt.mpr hk)
      subst hcustom
      trivial
    · intro kind hrank hnot
      refine (hwritten kind ?_).2 hnot
      rintro rfl
      cases hrank
    · obtain ⟨hlength, hlowered⟩ := hj .code
      exact hlowered.length.trans hlength
    · have hnone : m.data = [] := (hwritten .data nofun).2 fun content hf =>
        absurd (seenBehind_eq_true.mpr (.inr ⟨content, hf⟩)) (Bool.eq_false_iff.mp hseen)
      have hcount := (hj .data).2
      rw [hnone] at hcount
      cases hdeclared : m.dataCount with
      | none => rfl
      | some count => exact hcount count hdeclared

end Contents

/-! ## Data segments that code refers to -/

variable {i : Instr} {accessors accessors' : Accessors} {body : Body} {data : Nat}
  {binary : ByteArray}

theorem Instr.Moves.dataIndex_lt {labels : List (List ValueType)} {unr unr' : Bool}
    {ops ops' : List Operand} (h : Instr.Moves ctx labels i unr ops unr' ops')
    (hcount : ctx.dataCount = some count) (hi : i.dataIndex? = some index) : index < count := by
  cases h with
  | fixed h =>
    cases h <;> cases hi
    · next hd => exact hd count hcount
    · next hd => exact hd count hcount
  | _ => cases hi

theorem Code.Lowers.dataIndex_lt {os : List Scope} {sc sc' : Scope} {c : Code} {e e' : Emission}
    (h : c.Lowers ctx os sc e sc' e') (hcount : ctx.dataCount = some count) (hi : i ∈ c.instrs)
    (hindex : i.dataIndex? = some index) : index < count := by
  induction h with
  | done => cases hi
  | plain hm _ ih =>
    obtain rfl | hi := mem_cons.mp hi
    · exact hm.dataIndex_lt hcount hindex
    · exact ih hi
  | block _ _ _ _ _ ihb ih | loop _ _ _ _ _ ihb ih | ifThen _ _ _ _ _ _ ihb ih =>
    simp only [Code.instrs, mem_cons, mem_append] at hi
    rcases hi with rfl | hi | rfl | hi
    · cases hindex
    · exact ihb hi
    · cases hindex
    · exact ih hi
  | ifElse _ _ _ _ _ _ _ ihy ihno ih =>
    simp only [Code.instrs, mem_cons, mem_append] at hi
    rcases hi with rfl | hi | rfl | hi | rfl | hi
    · cases hindex
    · exact ihy hi
    · cases hindex
    · exact ihno hi
    · cases hindex
    · exact ih hi

theorem Body.Compiles.dataIndex_lt {func : CompiledFunction}
    (h : body.Compiles ctx index accessors func accessors') (hcount : ctx.dataCount = some count)
    (hd : data ∈ body.dataIndices) : data < count := by
  obtain ⟨-, -, hl, -, -⟩ := h
  obtain ⟨i, hi, hindex⟩ := mem_filterMap.mp hd
  exact hl.dataIndex_lt hcount hi hindex

theorem Body.Lowered.dataIndex_lt {bodies : List Body} {functions : List CompiledFunction}
    (h : Body.Lowered ctx index accessors bodies functions accessors')
    (hcount : ctx.dataCount = some count) (hb : body ∈ bodies) (hd : data ∈ body.dataIndices) :
    data < count := by
  induction h with
  | nil => cases hb
  | cons h _ ih =>
    obtain rfl | hb := mem_cons.mp hb
    · exact h.dataIndex_lt hcount hd
    · exact ih hb

theorem Contents.noted_lt_iff (hj : ∀ kind, m.Judged options kind) :
    (∀ index ∈ Draft.noted (m.context options) m.bodies, index < m.data.length) ↔
      ∀ body ∈ m.bodies, ∀ index ∈ body.dataIndices, index < m.data.length := by
  cases hcount : m.dataCount with
  | none =>
    rw [Draft.noted, if_pos (show (m.context options).dataCount = none from hcount)]
    simp only [mem_flatMap, forall_exists_index, and_imp]
    exact ⟨fun h body hb index hi => h index body hb hi,
      fun h index body hb hi => h body hb index hi⟩
  | some count =>
    have hsome : (m.context options).dataCount ≠ none := by
      intro h
      cases hcount.symm.trans (show m.dataCount = none from h)
    rw [Draft.noted, if_neg hsome]
    refine ⟨fun _ body hb index hi => ?_, fun _ => forall_mem_nil _⟩
    rw [← (hj .data).2 count hcount]
    exact (hj .code).2.dataIndex_lt hcount hb hi

/-! ## Modules -/

theorem Contents.outline_empty (options : CompileOptions) :
    (Draft.empty options).outline = Contents.empty.outline options false := rfl

theorem Contents.exists_of_compile {m : Module} (h : Module.compile options binary = .ok m) :
    ∃ contents : Contents, contents.Written binary.data.toList ∧ contents.Valid options ∧
      m = contents.module options := by
  obtain ⟨c1, c2, d, hheader, hsections, hfinish⟩ := Module.compile_eq_ok h
  obtain ⟨_, rfl, ho⟩ := (Reads.header _ _ _).mp hheader
  obtain ⟨frames, bs, contents, hframes, ho1, hend, hfills, hd⟩ := Contents.fills_of_sections
    (Nat.le_refl _) Contents.endsAt_empty (Contents.outline_empty options) hsections
  obtain ⟨hfunctions, hdata, hrefs, rfl⟩ := (Contents.finish_eq_ok hd).mp hfinish
  obtain ⟨hordered, hwritten, hj⟩ := Contents.fills_empty_iff.mp ⟨hfills, hfunctions, hdata⟩
  have hbytes : binary.data.toList = Module.headerBytes ++ bs := by
    rw [← Cursor.left_ofBytes binary 0, (ho.trans ho1).left, hend, append_nil]
  exact ⟨contents, ⟨frames, bs, hbytes, hframes, hordered, hwritten⟩,
    ⟨hj, (Contents.noted_lt_iff hj).mp hrefs⟩, rfl⟩

theorem Contents.compile_eq (hwritten : m.Written binary.data.toList) (hvalid : m.Valid options) :
    Module.compile options binary = .ok (m.module options) := by
  obtain ⟨frames, bs, hbytes, hframes, hordered, hforms⟩ := hwritten
  obtain ⟨c', hall⟩ := (Cursor.ofBytes binary 0).exists_over_left
  have hend : c'.left = [] :=
    append_cancel_left (hall.left.symm.trans (append_nil _).symm)
  rw [Cursor.left_ofBytes, hbytes] at hall
  obtain ⟨c1, ho, ho1⟩ := hall.split
  have hheader := (Reads.header _ () _).mpr ⟨_, rfl, ho⟩
  obtain ⟨hfills, hfunctions, hdata⟩ :=
    Contents.fills_empty_iff.mpr ⟨hordered, hforms, hvalid.judged⟩
  obtain ⟨d, hsections, hd⟩ := Contents.exists_sections (Nat.le_refl _) hframes ho1 hend
    Contents.endsAt_empty (Contents.outline_empty options) hfills
  have hfinish := (@Contents.finish_eq_ok options m d _ c'.position _ hd).mpr
    ⟨hfunctions, hdata, (Contents.noted_lt_iff hvalid.judged).mpr hvalid.dataIndices, rfl⟩
  have hmodule : Decode.module options (.ofBytes binary 0) = .ok (m.module options) c' := by
    have hget : (get : Decode Cursor) c1 = .ok c1 c1 := rfl
    have hpos : Decode.position c' = .ok c'.position c' := rfl
    rw [Decode.module, bind_of_ok hheader, bind_of_ok hget, bind_of_ok hsections, bind_of_ok hpos,
      hfinish]
    rfl
  rw [Module.compile, hmodule]

/-- **Exactly the binaries in the grammar whose entries are valid are modules, and a module has the
    entries of its binary and no others, in order.** -/
theorem Module.compile_iff_written (options : CompileOptions) (binary : ByteArray) (m : Module) :
    Module.compile options binary = .ok m ↔
      ∃ contents : Contents, contents.Written binary.data.toList ∧ contents.Valid options ∧
        m = contents.module options := by
  constructor
  · exact Contents.exists_of_compile
  · rintro ⟨contents, hwritten, hvalid, rfl⟩
    exact Contents.compile_eq hwritten hvalid

end Wasm
