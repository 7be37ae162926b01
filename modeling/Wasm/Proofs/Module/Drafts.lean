import Wasm.Module.Compile
import Wasm.Proofs.Sequencing

/-! # What sections do to a draft

A section is a range of its own behind an id and a size. -/

namespace Wasm

variable {range c c' : Cursor} {options : CompileOptions}

namespace Decode

theorem within_eq_ok {α : Type} {step : Decode α} {a : α} :
    within range step c = .ok a c' ↔ (∃ c1, step range = .ok a c1) ∧ c' = c := by
  unfold within
  cases step range with
  | ok b c1 =>
    constructor
    · intro h; cases h; exact ⟨⟨c1, rfl⟩, rfl⟩
    · rintro ⟨⟨c2, h⟩, rfl⟩; cases h; rfl
  | error e c1 =>
    constructor
    · intro h; cases h
    · rintro ⟨⟨c2, h⟩, -⟩; cases h

def takeSection (options : CompileOptions) (state : Nat × Draft) (at_ : Nat) (id : UInt8)
    (kind : Section) (range : Cursor) : Decode (Nat × Draft) := do
  if kind.rank = state.1 then fail (.duplicateSection id) at_
  if kind.rank < state.1 then fail (.sectionOutOfOrder id) at_
  let draft ← within range do
    let draft ← state.2.readSection options kind
    unless ← isEmpty do fail .sectionSizeMismatch (← position)
    return draft
  return (kind.rank, draft)

def framedSection (options : CompileOptions) (state : Nat × Draft) (at_ : Nat) (id : UInt8) :
    Option Section → Decode (Nat × Draft)
  | none => fail (.unknownSection id) at_
  | some kind => do
    let range ← sub (← u32)
    if kind = .custom then return state
    takeSection options state at_ id kind range

theorem oneSection_eq (options : CompileOptions) (state : Nat × Draft) :
    oneSection options state = (do
      let at_ ← position
      let id ← byte
      framedSection options state at_ id (Section.ofId? id)) := by
  refine bind_congr fun at_ => bind_congr fun id => ?_
  cases Section.ofId? id with
  | none => rfl
  | some kind => cases kind <;> rfl

theorem takeSection_eq_ok {rank rank' : Nat} {d d' : Draft} {at_ : Nat} {id : UInt8}
    {kind : Section} :
    takeSection options (rank, d) at_ id kind range c = .ok (rank', d') c' ↔
      rank < kind.rank ∧ rank' = kind.rank ∧ c' = c ∧
        ∃ c1, d.readSection options kind range = .ok d' c1 ∧ c1.isEmpty = true := by
  unfold takeSection
  by_cases heq : kind.rank = rank
  · rw [if_pos heq]
    exact ⟨fun h => (nomatch h), fun h => by omega⟩
  rw [if_neg heq]
  by_cases hlt : kind.rank < rank
  · rw [if_pos hlt]
    exact ⟨fun h => (nomatch h), fun h => by omega⟩
  rw [if_neg hlt, bind_eq_ok]
  constructor
  · rintro ⟨draft, c2, hwithin, h⟩
    cases h
    obtain ⟨⟨c3, hread⟩, rfl⟩ := within_eq_ok.mp hwithin
    obtain ⟨d1, c1, hsection, hread⟩ := bind_eq_ok.mp hread
    obtain ⟨empty, c4, hempty, hread⟩ := bind_eq_ok.mp hread
    cases hempty
    cases hc : c1.isEmpty with
    | true =>
      rw [hc] at hread
      cases hread
      exact ⟨by omega, rfl, rfl, _, hsection, hc⟩
    | false =>
      rw [hc] at hread
      cases hread
  · rintro ⟨-, rfl, rfl, c1, hsection, hc⟩
    refine ⟨d', _, within_eq_ok.mpr ⟨⟨c1, ?_⟩, rfl⟩, rfl⟩
    have hempty : isEmpty c1 = .ok true c1 := by
      rw [← hc]
      rfl
    rw [bind_of_ok hsection, bind_of_ok hempty]
    rfl

end Decode

theorem Module.compile_eq_ok {binary : ByteArray} {m : Module}
    (h : compile options binary = .ok m) :
    ∃ (c1 c2 : Cursor) (d : Draft), Decode.header (.ofBytes binary 0) = .ok () c1 ∧
      Decode.sections options c1.remaining (0, .empty options) c1 = .ok d c2 ∧
      d.finish c2.position = .ok m := by
  unfold compile at h
  split at h
  · next m' c' hmodule =>
      cases h
      obtain ⟨_, c1, hheader, h1⟩ := bind_eq_ok.mp hmodule
      obtain ⟨_, _, hget, h2⟩ := bind_eq_ok.mp h1
      cases hget
      obtain ⟨d, c2, hsections, h3⟩ := bind_eq_ok.mp h2
      obtain ⟨stop, _, hpos, h4⟩ := bind_eq_ok.mp h3
      cases hpos
      refine ⟨c1, c2, d, hheader, hsections, ?_⟩
      cases hfinish : d.finish c2.position with
      | ok m' => rw [hfinish] at h4; cases h4; rfl
      | error e => rw [hfinish] at h4; cases h4
  · cases h

end Wasm
