import Wasm.Proofs.Lowering.Building

/-! # The code of branches

A transfer if there is something to discard, and a jump; a table is followed by its stubs. -/

namespace Wasm

open List Operand

variable {i depth n : Nat} {popped : List Operand} {stack : ControlStack}

variable {sc : Scope} {ops rest : List Operand} {os scopes : List Scope} {types : List ValueType}
  {position : Nat} {stubs : List (Nat × Label)} {depths : List Nat} {e : Emission}

/-! ## Scopes that can be reached -/

/-- A scope whose code is kept up to here. -/
structure Scope.Live (sc : Scope) : Prop where
  reachable : sc.unreachable = false
  kept : sc.dead = false
  known : ∀ o ∈ sc.operands, o ≠ .unknown

theorem Scope.Live.isEmitting (h : sc.Live) : sc.isEmitting = true := by
  rw [Scope.isEmitting, h.reachable, h.kept]
  rfl

theorem Scope.Live.holding (h : sc.Live)
    (hk : ∀ o ∈ ops, o ≠ .unknown) : (sc.holding false ops).Live :=
  ⟨rfl, h.kept, hk⟩

theorem Scope.Live.keeping_eq (h : sc.Live) (ops : List Operand) :
    sc.keeping ops = sc.holding false ops := by
  rw [Scope.keeping, h.reachable]

def Scope.AllLive (scopes : List Scope) : Prop := ∀ sc ∈ scopes, sc.Live

def Scope.above (scopes : List Scope) (depth : Nat) : List Operand :=
  (scopes.take (depth + 1)).flatMap Scope.operands

theorem Scope.exists_above (h : sc.operands = known types ++ rest) (depth : Nat) :
    ∃ rest', Scope.above (sc :: os) depth = known types ++ rest' := by
  refine ⟨rest ++ (os.take depth).flatMap Scope.operands, ?_⟩
  rw [Scope.above, take_succ_cons, flatMap_cons, h, append_assoc]

theorem Scope.le_above (h : sc.operands = known types.reverse ++ rest) (depth : Nat) :
    types.length ≤ (Scope.above (sc :: os) depth).length := by
  obtain ⟨rest', hrest⟩ := @exists_above sc _ os _ h depth
  rw [hrest, length_append, length_known, length_reverse]
  exact Nat.le_add_right _ _

theorem Scope.AllLive.above (h : AllLive scopes) (depth : Nat) :
    ∀ o ∈ Scope.above scopes depth, o ≠ .unknown := by
  intro o ho
  obtain ⟨sc, hsc, hmem⟩ := mem_flatMap.mp ho
  exact (h sc (mem_of_mem_take hsc)).known o hmem

theorem Scope.AllLive.holding (h : AllLive (sc :: os)) (hk : ∀ o ∈ ops, o ≠ .unknown) :
    AllLive (sc.keeping ops :: os) := by
  obtain ⟨hsc, hos⟩ := forall_mem_cons.mp h
  rw [hsc.keeping_eq]
  exact forall_mem_cons.mpr ⟨hsc.holding hk, hos⟩

/-! ## Where branches go -/

theorem Scope.AllLive.opens {ts : List ValueType} (h : AllLive (sc :: os))
    (ht : take? sc.unreachable ts sc.operands = some rest) :
    sc.Live ∧ sc.operands = known ts ++ rest ∧ ∀ o ∈ rest, o ≠ .unknown := by
  have hsc := h sc mem_cons_self
  rw [hsc.reachable] at ht
  exact ⟨hsc, eq_append_of_take? hsc.known ht, take?_known hsc.known ht⟩

theorem eq_append_of_popMany? {acc : List Operand}
    (h : Operand.popMany? false n acc ops = some (popped, rest)) :
    ∃ front, ops = front ++ rest ∧ popped = front.reverse ++ acc ∧ front.length = n := by
  induction n generalizing acc ops with
  | zero =>
    cases h
    exact ⟨[], rfl, rfl, rfl⟩
  | succ n ih =>
    cases ops with
    | nil => cases h
    | cons o ops =>
      obtain ⟨front, rfl, rfl, hlen⟩ := ih h
      exact ⟨o :: front, rfl, by rw [reverse_cons, append_assoc]; rfl,
        congrArg Nat.succ hlen⟩

theorem eq_known_of_fitsAll (h : fitsAll ops types = true)
    (hlen : ops.length = types.length) (hk : ∀ o ∈ ops, o ≠ .unknown) : ops = known types := by
  induction ops generalizing types with
  | nil => rw [length_eq_zero_iff.mp hlen.symm]; rfl
  | cons o ops ih =>
    obtain ⟨t, types, rfl⟩ := exists_cons_of_length_eq_add_one hlen.symm
    obtain ⟨ho, hops⟩ := forall_mem_cons.mp hk
    rw [fitsAll, Bool.and_eq_true] at h
    rw [ih h.2 (Nat.succ.inj hlen) hops]
    cases o with
    | unknown => exact absurd rfl ho
    | known u =>
      rw [of_decide_eq_true h.1]
      rfl

theorem eq_append_of_popMany?_fitsAll (h : Operand.popMany? false n [] ops = some (popped, rest))
    (hlen : types.length = n) (hfits : fitsAll popped types = true)
    (hk : ∀ o ∈ ops, o ≠ .unknown) : ops = known types.reverse ++ rest := by
  obtain ⟨front, rfl, hpopped, hfront⟩ := eq_append_of_popMany? h
  rw [append_nil] at hpopped
  have heq : front.reverse = known types := by
    refine eq_known_of_fitsAll (hpopped ▸ hfits) ?_ fun o ho => ?_
    · rw [length_reverse, hfront, hlen]
    · exact hk o (mem_append_left _ (mem_reverse.mp ho))
  rw [known_reverse, ← heq, reverse_reverse]

/-- An instruction may branch so many levels out. -/
inductive Instr.GoesTo (st : ControlStack) : Instr → ControlStack → Nat → Prop
  | br {depth : Nat} : GoesTo st (.br depth) st depth
  | ret : GoesTo st .ret st st.functionDepth
  | brIf {depth : Nat} : GoesTo st (.brIf depth) st.dropTop depth
  | brTable {depths : List Nat} {default depth : Nat} (h : depth ∈ depths ++ [default]) :
      GoesTo st (.brTable depths default) st.dropTop depth

theorem Instr.Moves.goesTo {ctx : BodyContext} {i : Instr} {unr : Bool}
    (h : Instr.Moves ctx ((sc :: os).map Scope.branchTypes) i false sc.operands unr ops)
    (hl : Scope.AllLive (sc :: os)) (hg : i.GoesTo ⟨[], sc :: os⟩ stack depth) :
    ∃ sc' target rest, stack = ⟨[], sc' :: os⟩ ∧ Scope.AllLive (sc' :: os) ∧
      (sc' :: os)[depth]? = some target ∧
      sc'.operands = known target.branchTypes.reverse ++ rest := by
  have hsc := hl sc mem_cons_self
  have hl' := hl.holding fun o ho => hsc.known o (mem_of_mem_tail ho)
  cases h with
  | br ht htake =>
    cases hg
    obtain ⟨target, htarget, rfl⟩ := Check.labels_getElem?.mp ht
    exact ⟨sc, target, _, rfl, hl, htarget, eq_append_of_take? hsc.known htake⟩
  | ret ht htake =>
    cases hg
    rw [length_map] at ht
    obtain ⟨target, htarget, rfl⟩ := Check.labels_getElem?.mp ht
    exact ⟨sc, target, _, rfl, hl, htarget, eq_append_of_take? hsc.known htake⟩
  | brIf ht htake =>
    cases hg
    obtain ⟨target, htarget, rfl⟩ := @getElem?_holding _ sc os sc.unreachable sc.operands.tail _ ht
    have hops := eq_append_of_take? hsc.known htake
    rw [reverse_append] at hops
    exact ⟨_, target, _, rfl, hl', htarget, congrArg List.tail hops⟩
  | brTable hc _ hpop hall =>
    cases hg with
    | brTable hmem =>
      obtain ⟨types, ht, hlen, hfits⟩ := hall _ hmem
      obtain ⟨target, htarget, rfl⟩ :=
        @getElem?_holding _ sc os sc.unreachable sc.operands.tail _ ht
      have htail := congrArg List.tail (eq_append_of_take? hsc.known hc)
      exact ⟨_, target, _, rfl, hl', htarget, htail.trans
        (eq_append_of_popMany?_fitsAll hpop hlen hfits (take?_known hsc.known hc))⟩
  | fixed hf _ => cases hf <;> cases hg
  | _ => cases hg

/-! ## What branches discard -/

theorem known_filterMap_type? (h : ∀ o ∈ ops, o ≠ .unknown) :
    known (ops.filterMap Operand.type?) = ops := by
  induction ops with
  | nil => rfl
  | cons o ops ih =>
    obtain ⟨ho, hops⟩ := forall_mem_cons.mp h
    cases o with
    | unknown => exact absurd rfl ho
    | known t =>
      have ht : (Operand.known t).type? = some t := rfl
      rw [filterMap_cons_some ht, known_cons, ih hops]

theorem length_filterMap_type? (h : ∀ o ∈ ops, o ≠ .unknown) :
    (ops.filterMap Operand.type?).length = ops.length := by
  rw [← length_known, known_filterMap_type? h]

def Scope.surplus (scopes : List Scope) (depth : Nat) (target : Scope) : Nat :=
  (Scope.above scopes depth).length - target.branchTypes.length

theorem ControlStack.excess_eq {target : Scope} (h : scopes[depth]? = some target)
    (hl : Scope.AllLive scopes) :
    ∃ types, ControlStack.excess ⟨[], scopes⟩ depth = .ok types ∧
      types.length = Scope.surplus scopes depth target := by
  refine ⟨_, except_bind_eq_ok.mpr ⟨target, Check.scopeAt_eq_ok.mpr h, rfl⟩, ?_⟩
  rw [length_filterMap_type?, length_reverse, length_drop]
  · rfl
  · intro o ho
    exact hl.above depth o (mem_of_mem_drop (mem_reverse.mp ho))

namespace Emission

theorem isPlain_eq {target : Scope} (h : scopes[depth]? = some target) (hl : Scope.AllLive scopes) :
    isPlain ⟨[], scopes⟩ depth = decide (Scope.surplus scopes depth target = 0) := by
  obtain ⟨types, he, hlen⟩ := ControlStack.excess_eq h hl
  rw [isPlain, he, ← hlen]
  cases types <;> rfl

/-! ## One branch -/

def branchOps (slots : List Nat) (excess : Nat) (target : Label) : List (Op Label) :=
  if excess = 0 then [.jump target]
  else (transferOps slots excess).map .basic ++ [.jump target]

theorem branch_spec {target : Scope} (e : Emission) (h : scopes[depth]? = some target)
    (hl : Scope.AllLive scopes) :
    ∃ slots, (e.branch ⟨[], scopes⟩ depth).asm = { e.asm with
        code := e.asm.code ++
          (branchOps slots (Scope.surplus scopes depth target) target.label).toArray } ∧
      (Scope.surplus scopes depth target ≠ 0 → slots = (scratchSlots [] target.branchTypes e).1 ∧
        (scratchSlots [] target.branchTypes e).2.Heads (e.branch ⟨[], scopes⟩ depth)) := by
  obtain ⟨types, he, hlen⟩ := ControlStack.excess_eq h hl
  refine ⟨(scratchSlots [] target.branchTypes e).1, ?_⟩
  rw [← hlen]
  unfold branch branchOps
  rw [Check.scopeAt_eq_ok.mpr h, he]
  cases types with
  | nil =>
    refine ⟨?_, fun hne => absurd rfl hne⟩
    simp [Emission.emit, Assembly.emit]
  | cons t types =>
    refine ⟨?_, fun _ => ⟨rfl, ((extends_transfer_of_slots _ _ _).emit _).heads⟩⟩
    simp [Emission.emit, Assembly.emit, asm_transfer]

theorem branchIf_spec {target : Scope} (e : Emission) (h : scopes[depth]? = some target)
    (hl : Scope.AllLive scopes) :
    (Scope.surplus scopes depth target = 0 ∧
        e.branchIf ⟨[], scopes⟩ depth = e.emit (.jumpIf target.label)) ∨
      e.branchIf ⟨[], scopes⟩ depth = ((e.newLabel.2.emit (.jumpUnless ⟨e.asm.labels.size⟩)).branch
        ⟨[], scopes⟩ depth).bind ⟨e.asm.labels.size⟩ := by
  unfold branchIf
  rw [isPlain_eq h hl]
  by_cases hzero : Scope.surplus scopes depth target = 0
  · rw [decide_eq_true hzero, if_pos rfl, target_eq h]
    exact .inl ⟨hzero, rfl⟩
  · rw [decide_eq_false hzero]
    exact .inr rfl

/-! ## Branch tables -/

theorem lookup_tableLabels {stub : Label} (h : stubs.lookup depth = some stub) :
    (tableLabels stack stubs depths e).2.1.lookup depth = some stub := by
  induction depths generalizing stubs e with
  | nil => exact h
  | cons d depths ih =>
    rw [tableLabels]
    split
    · exact ih h
    · split
      · exact ih h
      · next hnone =>
          refine ih ?_
          have hne : (depth == d) = false := by
            refine beq_eq_false_iff_ne.mpr fun heq => ?_
            rw [← heq, h] at hnone
            cases hnone
          rw [lookup_cons, hne]
          exact h

theorem getElem?_tableLabels (h : depths[i]? = some depth) :
    ∃ label, (tableLabels stack stubs depths e).1[i]? = some label ∧
      ((isPlain stack depth = true ∧ label = target stack depth) ∨ (isPlain stack depth = false ∧
          (tableLabels stack stubs depths e).2.1.lookup depth = some label)) := by
  induction depths generalizing stubs e i with
  | nil => cases h
  | cons d depths ih =>
    rw [tableLabels]
    cases i with
    | zero =>
      cases h
      split
      · next hp => exact ⟨_, rfl, .inl ⟨hp, rfl⟩⟩
      · next hp =>
          have hp' : isPlain stack depth = false := Bool.eq_false_iff.mpr hp
          split
          · next stub hstub => exact ⟨stub, rfl, .inr ⟨hp', lookup_tableLabels hstub⟩⟩
          · exact ⟨_, rfl, .inr ⟨hp', lookup_tableLabels lookup_cons_self⟩⟩
    | succ i =>
      split
      · exact ih h
      · split
        · exact ih h
        · exact ih h

def stubCode (stack : ControlStack) (stubs : List (Nat × Label)) (e : Emission) : Emission :=
  stubs.foldl (fun e stub => (e.bind stub.2).branch stack stub.1) e

theorem heads_stubCode (stubs : List (Nat × Label)) (e : Emission) :
    e.Heads (stubCode stack stubs e) := by
  induction stubs generalizing e with
  | nil => exact (Extends.refl e).heads
  | cons stub stubs ih =>
    refine ((e.heads_bind stub.2).trans ?_).trans (ih _)
    exact (extends_branch _ stack stub.1).heads

theorem labels_branch (e : Emission) (depth : Nat) :
    (e.branch stack depth).asm.labels = e.asm.labels := by
  unfold branch
  split
  · rw [labels_emit]
    split
    · rfl
    · rw [asm_transfer]
  · rfl

theorem labels_stubCode {l : Label} (h : l ∉ stubs.map Prod.snd) :
    (stubCode stack stubs e).asm.labels[l.id]? = e.asm.labels[l.id]? := by
  induction stubs generalizing e with
  | nil => rfl
  | cons stub stubs ih =>
    rw [map_cons, mem_cons, not_or] at h
    refine (ih h.2).trans ?_
    rw [labels_branch, labels_bind, Array.getElem?_setIfInBounds_ne (Label.id_ne (Ne.symm h.1))]

theorem stubCode_spec (hlt : ∀ stub ∈ stubs, stub.2.id < e.asm.labels.size)
    (hnd : (stubs.map Prod.snd).Nodup) :
    ∀ stub ∈ stubs, ∃ e1 : Emission, (stubCode stack stubs e).asm.labels[stub.2.id]? =
        some (some e1.asm.code.size) ∧
      ((e1.bind stub.2).branch stack stub.1).Heads (stubCode stack stubs e) ∧
      ∀ base, e.Separate base → e1.Separate base := by
  induction stubs generalizing e with
  | nil => exact forall_mem_nil _
  | cons stub stubs ih =>
    rw [forall_mem_cons] at hlt
    obtain ⟨hnot, hnd'⟩ := nodup_cons.mp hnd
    have hx := (e.bind stub.2).extends_branch stack stub.1
    refine forall_mem_cons.mpr ⟨⟨e, ?_, heads_stubCode stubs _, fun _ h => h⟩, ?_⟩
    · refine (labels_stubCode hnot).trans ?_
      rw [labels_branch, labels_bind, Array.getElem?_setIfInBounds_self_of_lt hlt.1]
    · have hlt' : ∀ s ∈ stubs, s.2.id < ((e.bind stub.2).branch stack stub.1).asm.labels.size := by
        intro s hs
        rw [labels_branch, labels_bind, Array.size_setIfInBounds]
        exact hlt.2 s hs
      intro s hs
      obtain ⟨e1, hl, hh, hsep⟩ := ih hlt' hnd' s hs
      exact ⟨e1, hl, hh, fun base h => hsep base (hx.separate base h)⟩

def Reaches (stack : ControlStack) (e e' : Emission) (depth : Nat) (label : Label) : Prop :=
  (isPlain stack depth = true ∧ label = target stack depth) ∨
    (isPlain stack depth = false ∧ e.asm.labels.size ≤ label.id ∧ label.id < e'.asm.labels.size ∧
      ∃ e1 : Emission, e'.asm.labels[label.id]? = some (some e1.asm.code.size) ∧
        ((e1.bind label).branch stack depth).Heads e' ∧
        ∀ base, e.Separate base → e1.Separate base)

theorem getElem?_append_getD {α : Type} (l : List α) (last : α) (i : Nat) :
    (l ++ [last])[min i l.length]? = some (l[i]?.getD last) := by
  by_cases h : i < l.length
  · rw [Nat.min_eq_left (Nat.le_of_lt h), getElem?_append_left h, getElem?_eq_getElem h]
    rfl
  · rw [Nat.min_eq_right (Nat.le_of_not_lt h), getElem?_concat_length,
      getElem?_eq_none (Nat.le_of_not_lt h)]
    rfl

theorem exists_getD_eq {α : Type} {l : List α} {last x : α} (h : x ∈ l ++ [last]) :
    ∃ i : Nat, l[i]?.getD last = x := by
  obtain ⟨i, hi⟩ := getElem?_of_mem h
  have hlt := (List.getElem?_eq_some_iff.mp hi).1
  rw [length_append, length_singleton] at hlt
  have hget := getElem?_append_getD l last i
  rw [Nat.min_eq_left (Nat.le_of_lt_succ hlt), hi] at hget
  exact ⟨i, (Option.some.inj hget).symm⟩

theorem branchTable_spec (e : Emission) (depths : List Nat) (default : Nat) :
    ∃ (labels : List Label) (last : Label),
      e.asm.code.toList ++ [.jumpTable labels.toArray last] <+:
        (e.branchTable stack depths default).asm.code.toList ∧
      ∀ i : Nat, Reaches stack e (e.branchTable stack depths default) (depths[i]?.getD default)
        (labels[i]?.getD last) := by
  have hget {i depth} := @getElem?_tableLabels i depth stack [] (depths ++ [default]) e
  have hlen := length_tableLabels stack [] (depths ++ [default]) e
  have hq := tableLabels_code stack [] (depths ++ [default]) e
  have hbuilds := e.builds_tableLabels stack (depths ++ [default])
  unfold branchTable
  generalize tableLabels stack [] (depths ++ [default]) e = table at hget hlen hq hbuilds
  obtain ⟨all, stubs, e1⟩ := table
  dsimp only at hget hlen hq hbuilds ⊢
  obtain ⟨-, hnd, hpend⟩ := hbuilds.pending
  have hstub : ∀ stub ∈ stubs, e.asm.labels.size ≤ stub.2.id ∧ stub.2.id < e1.asm.labels.size := by
    intro stub hs
    obtain ⟨hle, hfree⟩ := hpend _ (mem_map_of_mem hs)
    exact ⟨hle, hfree.lt⟩
  -- The label of the default is the last one.
  obtain ⟨labels, last, rfl⟩ : ∃ labels last, all = labels ++ [last] := by
    rcases eq_nil_or_concat all with rfl | ⟨labels, last, h⟩
    · simp at hlen
    · exact ⟨labels, last, h.trans concat_eq_append⟩
  have hlen' : labels.length = depths.length := by simpa using hlen
  rw [dropLast_concat, getLastD_concat]
  refine ⟨labels, last, ?_, fun i => ?_⟩
  · refine List.IsPrefix.trans ?_ (heads_stubCode stubs.reverse _).code
    have hcode : _ = e.asm.code := hq.code
    exact (congrArg (fun code => (Array.push code (.jumpTable labels.toArray last)).toList)
      hcode).trans Array.toList_push ▸ prefix_rfl
  · obtain ⟨label, hlabel, hreach⟩ := hget (getElem?_append_getD depths default i)
    rw [← hlen', getElem?_append_getD] at hlabel
    cases hlabel
    rcases hreach with hplain | ⟨hp, hlookup⟩
    · exact .inl hplain
    · obtain ⟨l1, l2, hl, -⟩ := lookup_eq_some_iff.mp hlookup
      have hmem : (depths[i]?.getD default, labels[i]?.getD last) ∈ stubs :=
        hl ▸ mem_append_right _ mem_cons_self
      have hnd' : (stubs.reverse.map Prod.snd).Nodup := by
        rw [map_reverse]
        exact pairwise_reverse.mpr (hnd.imp Ne.symm)
      obtain ⟨e2, hbound, hheads, hsep⟩ := @stubCode_spec stack stubs.reverse
        (e1.emit (.jumpTable labels.toArray last))
        (fun stub hs => (hstub stub (mem_reverse.mp hs)).2) hnd' _
        (mem_reverse.mpr hmem)
      refine .inr ⟨hp, (hstub _ hmem).1, ?_, e2, hbound, hheads, fun base h => ?_⟩
      · obtain ⟨h, -⟩ := Array.getElem?_eq_some_iff.mp hbound
        exact h
      · exact hsep base (hbuilds.extended.separate base h)

theorem labels_stubCode_eq_some
    (h : (stubCode stack stubs e).asm.labels[i]? = some (some position)) :
    e.asm.labels[i]? = some (some position) ∨ e.asm.code.size ≤ position := by
  induction stubs generalizing e with
  | nil => exact .inl h
  | cons stub stubs ih =>
    rcases ih h with hl | hle
    · rw [labels_branch, labels_bind, Array.getElem?_setIfInBounds] at hl
      split at hl
      · split at hl
        · cases hl
          exact .inr (Nat.le_refl _)
        · cases hl
      · exact .inl hl
    · have hx := (e.bind stub.2).extends_branch stack stub.1
      exact .inr (Nat.le_trans hx.code_size hle)

theorem labels_tableLabels_eq_some
    (h : (tableLabels stack stubs depths e).2.2.asm.labels[i]? = some (some position)) :
    e.asm.labels[i]? = some (some position) := by
  induction depths generalizing stubs e with
  | nil => exact h
  | cons d depths ih =>
    rw [tableLabels] at h
    split at h
    · exact ih h
    · split at h
      · exact ih h
      · have hl := ih h
        rw [labels_newLabel, Array.getElem?_push] at hl
        split at hl
        · cases hl
        · exact hl

theorem lt_of_labels_branchTable {default : Nat} (hi : e.asm.labels.size ≤ i)
    (h : (e.branchTable stack depths default).asm.labels[i]? = some (some position)) :
    e.asm.code.size < position := by
  have hq := tableLabels_code stack [] (depths ++ [default]) e
  rcases labels_stubCode_eq_some h with hl | hle
  · have hold := labels_tableLabels_eq_some hl
    rw [Array.getElem?_eq_none hi] at hold
    cases hold
  · rw [code_emit, Array.size_push, hq.code] at hle
    exact hle

end Emission

end Wasm
