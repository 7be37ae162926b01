import Wasm.Proofs.Lowering.Structure

/-! # The checks decide the typing rules

Well-typed code is lowered (`Code.HasType.lowers`), and conversely (`Code.Lowers.hasType`). -/

namespace Wasm

open List

variable {w rest final : List Operand} {ts : List ValueType} {c : Code}

namespace Operand

theorem Sub.refl (o : Operand) : o.Sub o := .inr rfl

variable {o p : Operand} {t : ValueType} {ps' : List Operand}

theorem Sub.trans {q : Operand} (h : o.Sub p) (h' : p.Sub q) : o.Sub q := by
  rcases h with rfl | rfl
  · exact .inl rfl
  · exact h'

theorem known_sub : (known t).Sub p ↔ p = known t := by
  constructor
  · rintro (h | rfl)
    · cases h
    · rfl
  · rintro rfl; exact .refl _

theorem fits_iff_sub : o.fits t = true ↔ o.Sub (known t) := by
  cases o with
  | unknown => exact ⟨fun _ => .inl rfl, fun _ => rfl⟩
  | known u =>
    rw [known_sub, fits_known, decide_eq_true_iff]
    constructor
    · rintro rfl; rfl
    · intro h; cases h; rfl

theorem Subs.refl (os : List Operand) : Subs os os := by
  induction os with
  | nil => exact .nil
  | cons o os ih => exact .cons (.refl o) ih

theorem Subs.trans {os ps qs : List Operand} (h : Subs os ps) (h' : Subs ps qs) : Subs os qs := by
  induction h generalizing qs with
  | nil => exact h'
  | cons ho _ ih =>
    cases h' with
    | cons hp hps => exact .cons (ho.trans hp) (ih hps)

variable {os ps : List Operand}

theorem Subs.append {os' : List Operand} (h : Subs os ps) (h' : Subs os' ps') :
    Subs (os ++ os') (ps ++ ps') := by
  induction h with
  | nil => exact h'
  | cons ho _ ih => exact .cons ho ih

theorem Subs.reverse (h : Subs os ps) : Subs os.reverse ps.reverse := by
  induction h with
  | nil => exact .nil
  | cons ho _ ih =>
    rw [reverse_cons, reverse_cons]
    exact ih.append (.cons ho .nil)

theorem Subs.split (h : Subs os (ps ++ ps')) :
    ∃ os1 os2, os = os1 ++ os2 ∧ Subs os1 ps ∧ Subs os2 ps' := by
  induction ps generalizing os with
  | nil => exact ⟨[], os, rfl, .nil, h⟩
  | cons p ps ih =>
    cases h with
    | cons ho hrest =>
      obtain ⟨os1, os2, rfl, h1, h2⟩ := ih hrest
      exact ⟨_ :: os1, os2, rfl, .cons ho h1, h2⟩

/-- The kept operands stand for a list of operands. -/
inductive Admits : Bool → List Operand → List Operand → Prop
  | nil {unr} : Admits unr [] []
  | anything {v} : Admits true [] v
  | cons {unr o p ops v} (h : o.Sub p) (hs : Admits unr ops v) : Admits unr (o :: ops) (p :: v)

namespace Admits

variable {unr : Bool} {ops v : List Operand}

theorem refl (unr : Bool) (ops : List Operand) : Admits unr ops ops := by
  induction ops with
  | nil => exact .nil
  | cons o ops ih => exact .cons (.refl o) ih

theorem trans (h : Admits unr ops v) (h' : Subs v w) : Admits unr ops w := by
  induction h generalizing w with
  | nil => cases h'; exact .nil
  | anything => exact .anything
  | cons ho _ ih =>
    cases h' with
    | cons hp hs => exact .cons (ho.trans hp) (ih hs)

theorem eq_nil (h : Admits unr ops []) : ops = [] := by
  cases h <;> rfl

theorem cons_iff {p : Operand} : Admits unr ops (p :: v) ↔
      ∃ o rest, pop? unr ops = some (o, rest) ∧ o.Sub p ∧ Admits unr rest v := by
  constructor
  · intro h
    cases h with
    | anything => exact ⟨unknown, [], rfl, .inl rfl, .anything⟩
    | cons ho hs => exact ⟨_, _, rfl, ho, hs⟩
  · rintro ⟨o, rest, hp, ho, hs⟩
    cases ops with
    | cons q ops => cases hp; exact .cons ho hs
    | nil =>
      cases unr with
      | true => exact .anything
      | false => cases hp

theorem known_append_iff : Admits unr ops (Wasm.known ts ++ v) ↔
      ∃ rest, take? unr ts ops = some rest ∧ Admits unr rest v := by
  induction ts generalizing ops with
  | nil =>
    constructor
    · intro h; exact ⟨ops, rfl, h⟩
    · rintro ⟨rest, h, hs⟩; cases h; exact hs
  | cons t ts ih =>
    rw [known_cons, cons_append, cons_iff]
    constructor
    · rintro ⟨o, rest, hp, ho, hs⟩
      obtain ⟨rest', ht, hs'⟩ := ih.mp hs
      refine ⟨rest', ?_, hs'⟩
      rw [take?, hp]
      simpa only [fits_iff_sub.mpr ho, if_true] using ht
    · rintro ⟨rest', ht, hs'⟩
      rw [take?] at ht
      cases hp : pop? unr ops with
      | none => rw [hp] at ht; cases ht
      | some p =>
        obtain ⟨o, rest⟩ := p
        rw [hp] at ht
        dsimp only at ht
        by_cases ho : o.fits t = true
        · rw [if_pos ho] at ht
          exact ⟨o, rest, rfl, fits_iff_sub.mp ho, ih.mpr ⟨rest', ht, hs'⟩⟩
        · rw [if_neg ho] at ht
          cases ht

theorem of_known_append (h : Admits unr (Wasm.known ts ++ ops) v) :
    ∃ v', v = Wasm.known ts ++ v' ∧ Admits unr ops v' := by
  induction ts generalizing v with
  | nil => exact ⟨v, rfl, h⟩
  | cons t ts ih =>
    cases h with
    | cons ho hs =>
      obtain ⟨v', rfl, hs'⟩ := ih hs
      rw [known_sub.mp ho]
      exact ⟨v', rfl, hs'⟩

theorem known_append (h : Admits unr ops v) :
    Admits unr (Wasm.known ts ++ ops) (Wasm.known ts ++ v) := by
  induction ts with
  | nil => exact h
  | cons t ts ih => exact .cons (.refl _) ih

theorem popMany? {ts : List Operand} (acc : List Operand) (h : Admits unr ops (ts ++ v)) :
    ∃ ps rest, Operand.popMany? unr ts.length acc ops = some (ps.reverse ++ acc, rest) ∧
      Subs ps ts ∧ Admits unr rest v := by
  induction ts generalizing ops acc with
  | nil => exact ⟨[], ops, rfl, .nil, h⟩
  | cons t ts ih =>
    obtain ⟨o, rest, hp, ho, hs⟩ := cons_iff.mp h
    obtain ⟨ps, rest', hm, hsub, hs'⟩ := ih (o :: acc) hs
    refine ⟨o :: ps, rest', ?_, .cons ho hsub, hs'⟩
    rw [length_cons, Operand.popMany?, hp]
    simpa only [reverse_cons, append_assoc, singleton_append] using hm

theorem of_popMany? {n : Nat} {acc popped : List Operand}
    (h : Operand.popMany? unr n acc ops = some (popped, rest)) :
    ∃ ps : List Operand, popped = ps.reverse ++ acc ∧ ps.length = n ∧
      ∀ v, Admits unr rest v → Admits unr ops (ps ++ v) := by
  induction n generalizing ops acc with
  | zero => cases h; exact ⟨[], rfl, rfl, fun v hv => hv⟩
  | succ n ih =>
    rw [Operand.popMany?] at h
    cases hp : pop? unr ops with
    | none => rw [hp] at h; cases h
    | some p =>
      obtain ⟨o, ops1⟩ := p
      rw [hp] at h
      obtain ⟨ps, rfl, hlen, hall⟩ := ih h
      refine ⟨o :: ps, ?_, by rw [length_cons, hlen], ?_⟩
      · rw [reverse_cons, append_assoc, singleton_append]
      · intro v hv
        exact cons_iff.mpr ⟨o, ops1, hp, .refl o, hall v hv⟩

end Admits

theorem Subs.length_eq (h : Subs os ps) : os.length = ps.length := by
  induction h with
  | nil => rfl
  | cons _ _ ih => rw [length_cons, length_cons, ih]

theorem fitsAll_iff_subs (h : os.length = ts.length) :
    fitsAll os ts = true ↔ Subs os (Wasm.known ts) := by
  induction os generalizing ts with
  | nil =>
    cases ts with
    | nil => exact ⟨fun _ => .nil, fun _ => rfl⟩
    | cons t ts => cases h
  | cons o os ih =>
    cases ts with
    | nil => cases h
    | cons t ts =>
      rw [fitsAll, Bool.and_eq_true, fits_iff_sub, ih (Nat.succ.inj h)]
      constructor
      · rintro ⟨ho, hs⟩; exact .cons ho hs
      · intro hs
        cases hs with
        | cons ho hs => exact ⟨ho, hs⟩

end Operand

open Operand

variable {ctx : BodyContext} {results : List ValueType} {labels : List (List ValueType)}

/-! ## Single instructions -/

variable {below ops v : List Operand} {i : Instr} {ps : List ValueType} {unr : Bool}

variable {rs : List ValueType} {ins outs top : List Operand} {next : Code}
  {first second : Operand} {sc sc' : Scope} {os : List Scope} {e e' : Emission}

theorem Operand.Admits.apply (h : Admits unr ops ((Wasm.known ps).reverse ++ below)) :
    ∃ rest, take? unr ps.reverse ops = some rest ∧
      Admits unr ((Wasm.known rs).reverse ++ rest) ((Wasm.known rs).reverse ++ below) := by
  rw [← known_reverse] at h
  obtain ⟨rest, ht, hs⟩ := Admits.known_append_iff.mp h
  refine ⟨rest, ht, ?_⟩
  rw [← known_reverse]
  exact hs.known_append

theorem Instr.HasType.moves (h : Instr.HasType ctx results labels i ins outs)
    (hr : labels[labels.length - 1]? = some results) (htop : Subs top ins)
    (ha : Admits unr ops (below ++ top).reverse) :
    ∃ unr' ops', Instr.Moves ctx labels i unr ops unr' ops' ∧
      Admits unr' ops' (below ++ outs).reverse := by
  have ha' : Admits unr ops (ins.reverse ++ below.reverse) := by
    rw [reverse_append] at ha
    exact ha.trans (htop.reverse.append (.refl _))
  rw [reverse_append]
  cases h with
  | fixed hf =>
    obtain ⟨rest, ht, hs⟩ := ha'.apply
    exact ⟨_, _, .fixed hf ht, hs⟩
  | unreachable => exact ⟨_, _, .unreachable, .anything⟩
  | br hl =>
    rw [reverse_append, append_assoc, ← known_reverse] at ha'
    obtain ⟨rest, ht, -⟩ := Admits.known_append_iff.mp ha'
    exact ⟨_, _, .br hl ht, .anything⟩
  | ret =>
    rw [reverse_append, append_assoc, ← known_reverse] at ha'
    obtain ⟨rest, ht, -⟩ := Admits.known_append_iff.mp ha'
    exact ⟨_, _, .ret hr ht, .anything⟩
  | brIf hl =>
    obtain ⟨rest, ht, hs⟩ := ha'.apply
    exact ⟨_, _, .brIf hl ht, hs⟩
  | @brTable depths default carried under _ hall =>
    rw [reverse_append, reverse_append, append_assoc, append_assoc, ← known_reverse] at ha'
    obtain ⟨ops1, hi, hs⟩ := Admits.known_append_iff.mp ha'
    obtain ⟨types, hdef, hsub⟩ := hall default (mem_append_right _ mem_cons_self)
    obtain ⟨ps, rest, hpop, hps, -⟩ := hs.popMany? []
    rw [length_reverse, hsub.length_eq, length_known, append_nil] at hpop
    refine ⟨_, _, .brTable hi hdef hpop ?_, .anything⟩
    intro depth hd
    obtain ⟨ts, hts, hsub'⟩ := hall depth hd
    have hlen : ts.length = types.length := by
      rw [← length_known ts, ← hsub'.length_eq, hsub.length_eq, length_known]
    have hps' : Subs ps.reverse carried := by simpa only [reverse_reverse] using hps.reverse
    have hfit := hps'.trans hsub'
    exact ⟨ts, hts, hlen, (fitsAll_iff_subs (by rw [hfit.length_eq, length_known])).mpr hfit⟩
  | drop =>
    obtain ⟨o, rest, hp, -, hs⟩ := Admits.cons_iff.mp ha'
    exact ⟨_, _, .drop hp, hs⟩
  | @select o t ho ht =>
    have hcond : Admits unr ops (Wasm.known [.i32] ++ o :: o :: below.reverse) := ha'
    obtain ⟨ops1, hi, hs1⟩ := Admits.known_append_iff.mp hcond
    obtain ⟨second, ops2, h2, hsub2, hs2⟩ := Admits.cons_iff.mp hs1
    obtain ⟨first, rest, h1, hsub1, hs⟩ := Admits.cons_iff.mp hs2
    have hsel : (selected first second).Sub o := by
      unfold selected
      split
      · exact hsub2
      · exact hsub1
    refine ⟨_, _, .select hi h2 h1 ?_ ?_, .cons hsel hs⟩
    · rintro a b rfl rfl
      exact Operand.known.inj ((known_sub.mp hsub2).symm.trans (known_sub.mp hsub1))
    · intro u hu
      rw [hu] at hsel
      have hut : Operand.known t = .known u := known_sub.mp (hsel.trans ho)
      cases hut
      exact Bool.not_eq_true' _ |>.mp ht
  | @refIsNull t ht =>
    obtain ⟨o, rest, hp, ho, hs⟩ := Admits.cons_iff.mp ha'
    refine ⟨_, _, .refIsNull hp ?_, .cons (.refl _) hs⟩
    rintro u rfl
    cases known_sub.mp ho
    exact ht

theorem Code.HasType.of_subs (h : Code.HasType ctx results labels c v final) (hw : Subs w v) :
    Code.HasType ctx results labels c w final := by
  induction h generalizing w with
  | done hs => exact .done (hw.trans hs)
  | plain hi htop _ ih =>
    obtain ⟨w1, w2, rfl, hw1, hw2⟩ := hw.split
    exact .plain hi (hw2.trans htop) (ih (hw1.append (.refl _)))
  | block ht hb htop _ _ ih =>
    obtain ⟨w1, w2, rfl, hw1, hw2⟩ := hw.split
    exact .block ht hb (hw2.trans htop) (ih (hw1.append (.refl _)))
  | loop ht hb htop _ _ ih =>
    obtain ⟨w1, w2, rfl, hw1, hw2⟩ := hw.split
    exact .loop ht hb (hw2.trans htop) (ih (hw1.append (.refl _)))
  | ifThen ht hsame hy htop _ _ ih =>
    obtain ⟨w1, w2, rfl, hw1, hw2⟩ := hw.split
    exact .ifThen ht hsame hy (hw2.trans htop) (ih (hw1.append (.refl _)))
  | ifElse ht hy hno htop _ _ _ ih =>
    obtain ⟨w1, w2, rfl, hw1, hw2⟩ := hw.split
    exact .ifElse ht hy hno (hw2.trans htop) (ih (hw1.append (.refl _)))

theorem Code.HasType.transfer {hi : i.isPlain = true}
    (h : Instr.HasType ctx results labels i ins outs)
    (hn : Code.HasType ctx results labels next outs final) :
    Code.HasType ctx results labels (.plain i hi next) ins final :=
  @Code.HasType.plain ctx results labels i hi next ins outs [] ins final h (.refl ins) hn

theorem Operand.Admits.of_take? (ht : take? unr ps.reverse ops = some rest)
    (h : Admits unr rest below.reverse) : Admits unr ops (below ++ Wasm.known ps).reverse := by
  rw [reverse_append, ← known_reverse]
  exact Admits.known_append_iff.mpr ⟨rest, ht, h⟩

theorem Operand.Admits.of_push (h : Admits unr ((Wasm.known rs).reverse ++ ops) v.reverse) :
    ∃ below, v = below ++ Wasm.known rs ∧ Admits unr ops below.reverse := by
  rw [← known_reverse] at h
  obtain ⟨below, hv, hb⟩ := h.of_known_append
  refine ⟨below.reverse, ?_, by rwa [reverse_reverse]⟩
  rw [← reverse_inj, hv, reverse_append, reverse_reverse, known_reverse]

theorem Operand.Admits.of_cons {o : Operand} (h : Admits unr (o :: ops) v.reverse) :
    ∃ below p, v = below ++ [p] ∧ o.Sub p ∧ Admits unr ops below.reverse := by
  cases hv : v.reverse with
  | nil => rw [hv] at h; cases h.eq_nil
  | cons p below =>
    rw [hv] at h
    obtain ⟨o', rest, hpop, ho, hs⟩ := Admits.cons_iff.mp h
    cases hpop
    refine ⟨below.reverse, p, ?_, ho, by rwa [reverse_reverse]⟩
    rw [← reverse_cons, ← hv, reverse_reverse]

theorem Operand.sub_selected (h : ∀ a b, first = .known a → second = .known b → b = a) :
    first.Sub (selected first second) ∧ second.Sub (selected first second) := by
  cases first with
  | unknown => exact ⟨.inl rfl, .refl _⟩
  | known a =>
    refine ⟨.refl _, ?_⟩
    cases second with
    | unknown => exact .inl rfl
    | known b => rw [h a b rfl rfl]; exact .refl _

theorem Operand.selected_sub_num (h : ∀ t, selected first second = .known t → t.isRef = false) :
    ∃ t, (selected first second).Sub (.known t) ∧ t.isNum = true := by
  cases hs : selected first second with
  | unknown => exact ⟨.i32, .inl rfl, rfl⟩
  | known t => exact ⟨t, .refl _, by rw [ValueType.isNum, h t hs]; rfl⟩

theorem Operand.Admits.refl_reverse (unr : Bool) (ops : List Operand) :
    Admits unr ops ops.reverse.reverse := by
  rw [reverse_reverse]
  exact .refl unr ops

theorem Instr.Moves.hasType {hi : i.isPlain = true} {unr' : Bool} {ops' : List Operand}
    (h : Instr.Moves ctx labels i unr ops unr' ops')
    (hr : labels[labels.length - 1]? = some results) (ha : Admits unr' ops' v.reverse)
    (hn : Code.HasType ctx results labels next v final) :
    ∃ u, Admits unr ops u.reverse ∧ Code.HasType ctx results labels (.plain i hi next) u final := by
  cases h with
  | fixed hf ht =>
    obtain ⟨below, rfl, hb⟩ := ha.of_push
    exact ⟨_, hb.of_take? ht, .plain (.fixed hf) (.refl _) hn⟩
  | unreachable => exact ⟨_, .refl_reverse _ _, .transfer .unreachable hn⟩
  | br hl ht => exact ⟨_, .of_take? ht (.refl_reverse _ _), .transfer (.br hl) hn⟩
  | @ret types _ _ _ hl ht =>
    obtain rfl : results = types := Option.some.inj (hr.symm.trans hl)
    exact ⟨_, .of_take? ht (.refl_reverse _ _), .transfer .ret hn⟩
  | brIf hl ht =>
    obtain ⟨below, rfl, hb⟩ := ha.of_push
    exact ⟨_, hb.of_take? ht, .plain (.brIf hl) (.refl _) hn⟩
  | @brTable depths default types carried _ _ ops1 rest hcond hl hpop hall =>
    obtain ⟨ps, hc, hlen, hps⟩ := Admits.of_popMany? hpop
    rw [append_nil] at hc
    subst hc
    refine ⟨rest.reverse ++ ps.reverse ++ known [.i32], .of_take? hcond ?_,
      .transfer (.brTable ?_) hn⟩
    · rw [reverse_append, reverse_reverse, reverse_reverse]
      exact hps _ (.refl _ _)
    · intro depth hd
      obtain ⟨ts, hts, htlen, hfit⟩ := hall depth hd
      refine ⟨ts, hts, (fitsAll_iff_subs ?_).mp hfit⟩
      rw [length_reverse, hlen, htlen]
  | @drop o _ _ _ hp =>
    refine ⟨v ++ [o], ?_, .plain .drop (.refl _) (by rwa [append_nil])⟩
    rw [reverse_append]
    exact Admits.cons_iff.mpr ⟨o, _, hp, .refl o, ha⟩
  | @select first second _ _ ops1 ops2 rest hcond h2 h1 hsame hnum =>
    -- An unknown result stands for any operand, and `select` yields numbers only, so
    -- the code behind it is typed from the unknown operand itself.
    obtain ⟨below, p, rfl, hp, hb⟩ := ha.of_cons
    obtain ⟨hs1, hs2⟩ := sub_selected hsame
    obtain ⟨t, hsel, ht⟩ := selected_sub_num hnum
    have hn' := hn.of_subs (Subs.append (.refl below) (.cons hp .nil))
    refine ⟨below ++ [selected first second, selected first second, .known .i32], ?_,
      .plain (.select hsel ht) (.refl _) hn'⟩
    rw [reverse_append]
    obtain ⟨o, hi1, hi2⟩ := take?_singleton.mp hcond
    refine Admits.cons_iff.mpr ⟨o, ops1, hi1, fits_iff_sub.mp hi2, ?_⟩
    exact Admits.cons_iff.mpr ⟨_, _, h2, hs2, Admits.cons_iff.mpr ⟨_, _, h1, hs1, hb⟩⟩
  | @refIsNull o _ _ rest hp href =>
    obtain ⟨below, p, rfl, hi, hb⟩ := ha.of_cons
    obtain ⟨t, hsub, ht⟩ : ∃ t, o.Sub (.known t) ∧ t.isRef = true := by
      cases o with
      | unknown => exact ⟨.funcRef, .inl rfl, rfl⟩
      | known t => exact ⟨t, .refl _, href t rfl⟩
    rw [known_sub.mp hi] at hn
    refine ⟨below ++ [.known t], ?_, .plain (.refIsNull ht) (.refl _) hn⟩
    rw [reverse_append]
    exact Admits.cons_iff.mpr ⟨o, rest, hp, hsub, hb⟩

/-! ## Code -/

theorem Scope.closes_iff :
    sc.Closes ↔ Admits sc.unreachable sc.operands (known sc.results).reverse := by
  have h := @Admits.known_append_iff sc.results.reverse sc.unreachable sc.operands []
  rw [append_nil, known_reverse] at h
  rw [h, Scope.Closes]
  constructor
  · intro ht; exact ⟨[], ht, .nil⟩
  · rintro ⟨rest, ht, hs⟩; rw [ht, hs.eq_nil]

theorem getElem?_last_cons {types : List ValueType}
    (h : labels[labels.length - 1]? = some results) :
    (types :: labels)[(types :: labels).length - 1]? = some results := by
  cases labels with
  | nil => cases h
  | cons l labels => simpa using h

theorem Operand.Admits.exchange (htop : Subs top (Wasm.known ps))
    (h : Admits unr ops (below ++ top).reverse) :
    ∃ rest, take? unr ps.reverse ops = some rest ∧ ∀ rs : List ValueType,
      Admits unr ((Wasm.known rs).reverse ++ rest) (below ++ Wasm.known rs).reverse := by
  rw [reverse_append] at h
  have h' := h.trans (htop.reverse.append (.refl _))
  rw [← known_reverse] at h'
  obtain ⟨rest, ht, hs⟩ := Admits.known_append_iff.mp h'
  refine ⟨rest, ht, fun rs => ?_⟩
  rw [reverse_append, ← known_reverse]
  exact hs.known_append

theorem Code.Lowers.closes (h : c.Lowers ctx os sc e sc' e')
    (ha : Admits sc'.unreachable sc'.operands (known sc.results).reverse) : sc'.Closes := by
  rw [Scope.closes_iff, h.results_eq]
  exact ha

theorem Code.HasType.lowers (h : Code.HasType ctx results labels c v final)
    (hr : labels[labels.length - 1]? = some results) (os : List Scope) (sc : Scope) (e : Emission)
    (hl : labels = (sc :: os).map Scope.branchTypes)
    (ha : Admits sc.unreachable sc.operands v.reverse) :
    ∃ sc' e', c.Lowers ctx os sc e sc' e' ∧ Admits sc'.unreachable sc'.operands final.reverse := by
  induction h generalizing os sc e with
  | done hs => exact ⟨sc, e, .done, ha.trans hs.reverse⟩
  | plain hi htop _ ih =>
    obtain ⟨unr, ops, hm, ha'⟩ := hi.moves hr htop ha
    obtain ⟨sc', e', hn, hf⟩ := ih hr os (sc.holding unr ops) _ hl ha'
    exact ⟨sc', e', .plain (hl ▸ hm) hn, hf⟩
  | @block _ _ type _ _ _ _ _ ht _ htop _ ihb ih =>
    obtain ⟨rest, hp, hpush⟩ := ha.exchange htop
    obtain ⟨inner, e1, hb, hcl⟩ := ihb (getElem?_last_cons hr) (sc.keeping rest :: os)
      (sc.block _ e.asm.labels.size) _
      (by rw [hl]; rfl) (.refl _ _)
    obtain ⟨sc', e', hn, hf⟩ := ih hr os
      (sc.keeping ((known type.results).reverse ++ rest)) _ hl (hpush _)
    exact ⟨sc', e', .block ht hp hb (hb.closes hcl) hn, hf⟩
  | @loop _ _ type _ _ _ _ _ ht _ htop _ ihb ih =>
    obtain ⟨rest, hp, hpush⟩ := ha.exchange htop
    obtain ⟨inner, e1, hb, hcl⟩ := ihb (getElem?_last_cons hr) (sc.keeping rest :: os)
      (sc.loop _ e.asm.labels.size) _
      (by rw [hl]; rfl) (.refl _ _)
    obtain ⟨sc', e', hn, hf⟩ := ih hr os
      (sc.keeping ((known type.results).reverse ++ rest)) _ hl (hpush _)
    exact ⟨sc', e', .loop ht hp hb (hb.closes hcl) hn, hf⟩
  | @ifThen _ _ type _ _ _ _ _ ht hsame _ htop _ ihy ih =>
    obtain ⟨rest, hp, hpush⟩ := ha.exchange htop
    obtain ⟨inner, e1, hy, hcl⟩ := ihy (getElem?_last_cons hr) (sc.keeping rest :: os)
      (sc.ifThen _ e.asm.labels.size) _
      (by rw [hl]; rfl) (.refl _ _)
    obtain ⟨sc', e', hn, hf⟩ := ih hr os
      (sc.keeping ((known type.results).reverse ++ rest)) _ hl (hpush _)
    exact ⟨sc', e', .ifThen ht hsame hp hy (hy.closes hcl) hn, hf⟩
  | @ifElse _ bt type _ _ _ _ _ _ ht _ _ htop _ ihy ihno ih =>
    obtain ⟨rest, hp, hpush⟩ := ha.exchange htop
    obtain ⟨first, e1, hy, hcl1⟩ := ihy (getElem?_last_cons hr)
      (sc.keeping rest :: os)
      (sc.ifThen _ e.asm.labels.size)
      ((Instr.ifThen bt).emit ctx ⟨[], sc :: os⟩ e)
      (by rw [hl]; rfl) (.refl _ _)
    have hres := hy.results_eq
    have hpar := hy.params_eq
    obtain ⟨second, e2, hno, hcl2⟩ := ihno (getElem?_last_cons hr)
      (sc.keeping rest :: os) first.toElse (first.emitElse e1)
      (by rw [hl, map_cons, Scope.branchTypes, Scope.toElse, hres]; rfl)
      (by rw [Scope.toElse, hpar]; exact .refl _ _)
    have hcl2' : second.Closes := hno.closes (by rw [Scope.toElse, hres]; exact hcl2)
    obtain ⟨sc', e', hn, hf⟩ := ih hr os
      (sc.keeping ((known type.results).reverse ++ rest)) _ hl (hpush _)
    exact ⟨sc', e', .ifElse ht hp hy (hy.closes hcl1) hno hcl2' hn, hf⟩

theorem Operand.Admits.eq_known (h : Admits false (Wasm.known ts).reverse v.reverse) :
    v = Wasm.known ts := by
  rw [← append_nil (Wasm.known ts).reverse] at h
  obtain ⟨below, rfl, hb⟩ := h.of_push
  cases below with
  | nil => rfl
  | cons o below =>
    rw [reverse_cons] at hb
    cases hr : below.reverse ++ [o] with
    | nil => exact absurd hr (by simp)
    | cons p ps => rw [hr] at hb; cases hb

/-- **Code that is lowered is well typed.** -/
theorem Code.Lowers.hasType (h : c.Lowers ctx os sc e sc' e')
    (hl : labels = (sc :: os).map Scope.branchTypes)
    (hr : labels[labels.length - 1]? = some results)
    (ha : Admits sc'.unreachable sc'.operands final.reverse) :
    ∃ v, Admits sc.unreachable sc.operands v.reverse ∧
      Code.HasType ctx results labels c v final := by
  induction h generalizing labels final with
  | done => exact ⟨final, ha, .done (.refl _)⟩
  | plain hm _ ih =>
    obtain ⟨v, hv, hn⟩ := ih hl hr ha
    exact (hl ▸ hm).hasType hr hv hn
  | block ht hp hb hc _ ihb ih =>
    obtain ⟨v, hv, hn⟩ := ih hl hr ha
    obtain ⟨below, rfl, hbelow⟩ := hv.of_push
    obtain ⟨u, hu, hbody⟩ := ihb (by rw [hl]; rfl) (getElem?_last_cons hr)
      (hb.results_eq ▸ Scope.closes_iff.mp hc)
    rw [hu.eq_known] at hbody
    exact ⟨_, hbelow.of_take? hp, .block ht hbody (.refl _) hn⟩
  | loop ht hp hb hc _ ihb ih =>
    obtain ⟨v, hv, hn⟩ := ih hl hr ha
    obtain ⟨below, rfl, hbelow⟩ := hv.of_push
    obtain ⟨u, hu, hbody⟩ := ihb (by rw [hl]; rfl) (getElem?_last_cons hr)
      (hb.results_eq ▸ Scope.closes_iff.mp hc)
    rw [hu.eq_known] at hbody
    exact ⟨_, hbelow.of_take? hp, .loop ht hbody (.refl _) hn⟩
  | ifThen ht hsame hp hy hc _ ihy ih =>
    obtain ⟨v, hv, hn⟩ := ih hl hr ha
    obtain ⟨below, rfl, hbelow⟩ := hv.of_push
    obtain ⟨u, hu, hyes⟩ := ihy (by rw [hl]; rfl) (getElem?_last_cons hr)
      (hy.results_eq ▸ Scope.closes_iff.mp hc)
    rw [hu.eq_known] at hyes
    exact ⟨_, hbelow.of_take? hp, .ifThen ht hsame hyes (.refl _) hn⟩
  | ifElse ht hp hy hc1 hno hc2 _ ihy ihno ih =>
    obtain ⟨v, hv, hn⟩ := ih hl hr ha
    obtain ⟨below, rfl, hbelow⟩ := hv.of_push
    have hres := hy.results_eq
    obtain ⟨u, hu, hyes⟩ := ihy (by rw [hl]; rfl) (getElem?_last_cons hr)
      (hres ▸ Scope.closes_iff.mp hc1)
    rw [hu.eq_known] at hyes
    have hcl2 := Scope.closes_iff.mp hc2
    rw [hno.results_eq, Scope.toElse, hres] at hcl2
    obtain ⟨w, hw, hnot⟩ := ihno (by rw [hl, map_cons, Scope.branchTypes, Scope.toElse, hres]; rfl)
      (getElem?_last_cons hr) hcl2
    rw [Scope.toElse, hy.params_eq] at hw
    rw [hw.eq_known] at hnot
    exact ⟨_, hbelow.of_take? hp, .ifElse ht hyes hnot (.refl _) hn⟩

end Wasm
