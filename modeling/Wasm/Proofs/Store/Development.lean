import Mathlib.Logic.Relation
import Wasm.Instantiate
import Wasm.Proofs.Machine.Changes

/-! # What becomes of the objects of a store

They become only what operations make of them (`Store.Develops`). -/

namespace Wasm

open Relation (ReflTransGen)

variable {i : Nat} {inst : Instance}

variable {α ρ : Type} {m m' : Memory}

theorem getElem?_append_some {xs ys : Array α} {x : α} (h : xs[i]? = some x) :
    (xs ++ ys)[i]? = some x := by
  rw [Array.getElem?_append_left (Array.getElem?_eq_some_iff.mp h).1, h]

theorem getElem?_setIfInBounds_some {xs : Array α} {j : Nat} {x y : α} (h : xs[j]? = some y) :
    (xs.setIfInBounds i x)[j]? = if i = j then some x else some y := by
  have hlt := (Array.getElem?_eq_some_iff.mp h).1
  rw [Array.getElem?_setIfInBounds]
  by_cases hij : i = j
  · subst hij
    rw [if_pos rfl, if_pos hlt, if_pos rfl]
  · rw [if_neg hij, if_neg hij, h]

/-! ## Tables and memories only grow -/

theorem Memory.Changes.grows (h : m.Changes m') :
    m'.maximum = m.maximum ∧ m'.pageCap = m.pageCap ∧ m.pageCount ≤ m'.pageCount := by
  cases h with
  | overwrite h =>
    exact ⟨m.maximum_overwrite _ _, m.pageCap_overwrite _ _,
      Nat.le_of_eq (m.pageCount_overwrite _ _).symm⟩
  | grow h =>
    refine ⟨rfl, rfl, ?_⟩
    simp only [pageCount, Array.size_append]
    exact Nat.le_add_right _ _
  | none => exact ⟨rfl, rfl, Nat.le_refl _⟩

theorem Memory.grows_of_changes (h : ReflTransGen Changes m m') :
    m'.maximum = m.maximum ∧ m'.pageCap = m.pageCap ∧ m.pageCount ≤ m'.pageCount := by
  induction h with
  | refl => exact ⟨rfl, rfl, Nat.le_refl _⟩
  | tail _ hlast ih =>
    obtain ⟨hmax, hcap, hcount⟩ := hlast.grows
    exact ⟨hmax.trans ih.1, hcap.trans ih.2.1, Nat.le_trans ih.2.2 hcount⟩

theorem Table.Changes.grows {t t' : Table ρ} (h : t.Changes t') :
    t'.maximum = t.maximum ∧ t.size ≤ t'.size := by
  cases h with
  | overwrite h => exact ⟨t.maximum_overwrite _ _, Nat.le_of_eq (t.size_overwrite _ _).symm⟩
  | grow h =>
    refine ⟨rfl, ?_⟩
    simp only [size, Array.size_append]
    exact Nat.le_add_right _ _
  | none => exact ⟨rfl, Nat.le_refl _⟩

theorem Table.grows_of_changes {t t' : Table ρ} (h : ReflTransGen Changes t t') :
    t'.maximum = t.maximum ∧ t.size ≤ t'.size := by
  induction h with
  | refl => exact ⟨rfl, Nat.le_refl _⟩
  | tail _ hlast ih =>
    obtain ⟨hmax, hsize⟩ := hlast.grows
    exact ⟨hmax.trans ih.1, Nat.le_trans ih.2 hsize⟩

/-! ## Objects stay -/

/-- The objects of a store are still there. -/
structure Store.Develops (s s' : Store) : Prop where
  tables : ∀ (addr : TableAddr) (t : TableInst), s.tables[addr.index]? = some t →
    ∃ table, s'.tables[addr.index]? = some { t with table } ∧
      ReflTransGen Table.Changes t.table table
  memories : ∀ (addr : MemoryAddr) (m : Memory), s.memories[addr.index]? = some m →
    ∃ m', s'.memories[addr.index]? = some m' ∧ ReflTransGen Memory.Changes m m'
  globals : ∀ (addr : GlobalAddr) (g : GlobalInst), s.globals[addr.index]? = some g →
    ∃ value, s'.globals[addr.index]? = some { g with value }
  elems : ∀ (addr : ElemAddr) (entries : Array (Option Ref)), s.elems[addr.index]? = some entries →
    s'.elems[addr.index]? = some entries ∨ s'.elems[addr.index]? = some #[]
  data : ∀ (addr : DataAddr) (d : DataInst), s.data[addr.index]? = some d →
    s'.data[addr.index]? = some d ∨ s'.data[addr.index]? = some { d with dropped := true }

namespace Store.Develops

variable {s s' s'' : Store}

theorem refl (s : Store) : s.Develops s where
  tables _ t h := ⟨t.table, h, .refl⟩
  memories _ m h := ⟨m, h, .refl⟩
  globals _ g h := ⟨g.value, h⟩
  elems _ _ h := .inl h
  data _ _ h := .inl h

theorem trans (h : s.Develops s') (h' : s'.Develops s'') : s.Develops s'' where
  tables addr t ht := by
    obtain ⟨table, ht', hchanges⟩ := h.tables addr t ht
    obtain ⟨table', ht'', hchanges'⟩ := h'.tables addr _ ht'
    exact ⟨table', ht'', hchanges.trans hchanges'⟩
  memories addr m hm := by
    obtain ⟨m', hm', hchanges⟩ := h.memories addr m hm
    obtain ⟨m'', hm'', hchanges'⟩ := h'.memories addr m' hm'
    exact ⟨m'', hm'', hchanges.trans hchanges'⟩
  globals addr g hg := by
    obtain ⟨value, hg'⟩ := h.globals addr g hg
    obtain ⟨value', hg''⟩ := h'.globals addr _ hg'
    exact ⟨value', hg''⟩
  elems addr entries he := by
    rcases h.elems addr entries he with he' | he'
    · exact h'.elems addr entries he'
    · exact .inr ((h'.elems addr #[] he').elim id id)
  data addr d hd := by
    rcases h.data addr d hd with hd' | hd'
    · exact h'.data addr d hd'
    · exact .inr ((h'.data addr _ hd').elim id id)

theorem of_append {tables : Array TableInst} {memories : Array Memory}
    {globals : Array GlobalInst} {elems : Array (Array (Option Ref))} {data : Array DataInst}
    (ht : s'.tables = s.tables ++ tables) (hm : s'.memories = s.memories ++ memories)
    (hg : s'.globals = s.globals ++ globals) (he : s'.elems = s.elems ++ elems)
    (hd : s'.data = s.data ++ data) : s.Develops s' where
  tables _ t h := ⟨t.table, by rw [ht]; exact getElem?_append_some h, .refl⟩
  memories _ m h := ⟨m, by rw [hm]; exact getElem?_append_some h, .refl⟩
  globals _ g h := ⟨g.value, by rw [hg]; exact getElem?_append_some h⟩
  elems _ _ h := .inl (by rw [he]; exact getElem?_append_some h)
  data _ _ h := .inl (by rw [hd]; exact getElem?_append_some h)

end Store.Develops

variable {s s' : Store}

theorem Store.Change.develops (h : s.Change s') : s.Develops s' := by
  cases h with
  | none => exact .refl s
  | @memory addr m m' hm hchanges =>
    refine { Develops.refl s with memories := ?_ }
    intro addr' m1 hm1
    rw [getElem?_setIfInBounds_some hm1]
    by_cases heq : addr.index = addr'.index
    · rw [heq, hm1] at hm
      cases hm
      rw [if_pos heq]
      exact ⟨m', rfl, .single hchanges⟩
    · rw [if_neg heq]
      exact ⟨m1, rfl, .refl⟩
  | @table addr t table ht hchanges =>
    refine { Develops.refl s with tables := ?_ }
    intro addr' t1 ht1
    rw [getElem?_setIfInBounds_some ht1]
    by_cases heq : addr.index = addr'.index
    · rw [heq, ht1] at ht
      cases ht
      rw [if_pos heq]
      exact ⟨table, rfl, .single hchanges⟩
    · rw [if_neg heq]
      exact ⟨t1.table, rfl, .refl⟩
  | @global addr value =>
    refine { Develops.refl s with globals := ?_ }
    intro addr' g hg
    rw [Store.setGlobal, Array.getElem?_modify, hg]
    split
    · exact ⟨value, rfl⟩
    · exact ⟨g.value, rfl⟩
  | @dropElem addr =>
    refine { Develops.refl s with elems := ?_ }
    intro addr' entries he
    rw [Store.dropElem, getElem?_setIfInBounds_some he]
    split
    · exact .inr rfl
    · exact .inl rfl
  | @dropData addr =>
    refine { Develops.refl s with data := ?_ }
    intro addr' d hd
    rw [Store.dropData, Array.getElem?_modify, hd]
    split
    · exact .inr rfl
    · exact .inl rfl

theorem Machine.step_develops (s : Store) (mc : Machine) : s.Develops (step s mc).store := by
  have h := step_alters s mc
  generalize (step s mc).store = s' at h
  cases h with
  | none => exact .refl s
  | report => exact { Store.Develops.refl s with }
  | change => exact (s.change_amend _).develops
  | frame h => exact h.change.develops

/-! ## What an instance does -/

def Store.TouchedBy (inst : Instance) : Store → Store → Prop :=
  ReflTransGen fun s s' => ∃ op, s.ChangeBy inst op s'

theorem Store.TouchedBy.develops {s s' : Store} (h : s.TouchedBy inst s') : s.Develops s' := by
  induction h with
  | refl => exact .refl s
  | tail _ hlast ih =>
    obtain ⟨op, hby⟩ := hlast
    exact ih.trans hby.change.develops

theorem Store.TouchedBy.agrees (h : s.TouchedBy inst s') : s.Agrees s' := by
  induction h with
  | refl => exact .refl s
  | tail _ hlast ih =>
    obtain ⟨op, hby⟩ := hlast
    exact ih.trans hby.change.agrees

namespace Instance

variable {α β : Type}

def Works (inst : Instance) (x : StoreM α) : Prop :=
  ∀ s, match x s with
    | .ok _ s' => s.TouchedBy inst s'
    | .error _ s' => s.TouchedBy inst s'

namespace Works

variable {x : StoreM α} {s s' : Store}

theorem ok (h : inst.Works x) {a : α} (hx : x s = .ok a s') : s.TouchedBy inst s' := by
  have := h s
  rwa [hx] at this

theorem error (h : inst.Works x) {t : Trap} (hx : x s = .error t s') : s.TouchedBy inst s' := by
  have := h s
  rwa [hx] at this

theorem pure (a : α) : inst.Works (Pure.pure a) := fun _ => .refl

theorem throw (t : Trap) : inst.Works (MonadExcept.throw t : StoreM α) := fun _ => .refl

theorem get : inst.Works MonadState.get := fun _ => .refl

theorem of_settles (op : Op Nat) (h : Settles (Store.ChangeBy inst op) x) : inst.Works x := by
  intro s
  cases hx : x s with
  | ok a s' => exact .single ⟨op, h.ok hx⟩
  | error t s' => rw [h.restores s t s' hx]; exact .refl

theorem bind {f : α → StoreM β} (hx : inst.Works x) (hf : ∀ a, inst.Works (f a)) :
    inst.Works (x >>= f) := by
  intro s
  cases hr : x s with
  | ok a s1 =>
    rw [bind_of_ok hr]
    have h := hf a s1
    split at h
    · exact (hx.ok hr).trans h
    · exact (hx.ok hr).trans h
  | error t s1 =>
    rw [bind_of_error hr]
    exact hx.error hr

end Works

variable {addr : ElemAddr}

theorem works_dropElem (h : inst.elems[i]? = some addr) :
    inst.Works (modify (·.dropElem addr) : StoreM PUnit) :=
  fun _ => .single ⟨_, .dropElem rfl h⟩

theorem works_applyElement {segment : ElementSegment} (h : inst.elems[i]? = some addr) :
    inst.Works (inst.applyElement segment addr) := by
  unfold applyElement
  split
  · exact .pure _
  · exact works_dropElem h
  · next table offset hmode =>
      refine Works.get.bind fun s => ?_
      split
      · exact .throw _
      · next tableAddr ht =>
          exact (Works.of_settles (.basic (.tableInit i table))
            (Store.settles_onTable (Table.settles_init _ _ _ _) (.table ht))).bind
              fun _ => works_dropElem h

theorem works_applyData {segment : DataSegment} {addr : DataAddr} (h : inst.data[i]? = some addr) :
    inst.Works (inst.applyData segment addr) := by
  unfold applyData
  split
  · next memory offset hmode =>
      split
      · exact .throw _
      · next memoryAddr hm =>
          refine Works.get.bind fun s => (Works.of_settles (.basic (.memoryInit i memory))
            (Store.settles_onMemory (Memory.settles_init _ _ _ _) (.memory hm))).bind fun _ => ?_
          exact fun _ => .single ⟨_, .dropData rfl h⟩
  · exact .pure _

theorem works_applyAll {apply : α → β → StoreM Unit} {as : List α} {bs : Array β}
    (h : ∀ (a : α) (i : Nat) (b : β), bs[i]? = some b → inst.Works (apply a b)) :
    inst.Works (applyAll apply (as.zip bs.toList)) := by
  have hmem : ∀ pair ∈ as.zip bs.toList, inst.Works (apply pair.1 pair.2) := by
    intro pair hpair
    obtain ⟨i, hi⟩ := Array.mem_iff_getElem?.mp (Array.mem_toList_iff.mp (List.of_mem_zip hpair).2)
    exact h pair.1 i pair.2 hi
  generalize as.zip bs.toList = pairs at hmem
  induction pairs with
  | nil => exact .pure _
  | cons pair pairs ih =>
    obtain ⟨hhead, htail⟩ := List.forall_mem_cons.mp hmem
    exact hhead.bind fun _ => ih htail

theorem works_applySegments (inst : Instance) : inst.Works inst.applySegments :=
  (works_applyAll fun _ _ _ h => works_applyElement h).bind fun _ =>
    works_applyAll fun _ _ _ h => works_applyData h

theorem keeps_applySegments (inst : Instance) : Keeps Store.Agrees inst.applySegments := by
  intro s
  have h := inst.works_applySegments s
  split
  · next heq => rw [heq] at h; exact h.agrees
  · next heq => rw [heq] at h; exact h.agrees

theorem runStart_along {R : Store → Store → Prop} (hrefl : ∀ s, R s s)
    (htrans : ∀ {s s' s''}, R s s' → R s' s'' → R s s'')
    (hstep : ∀ s mc, R s (Machine.step s mc).store) (fuel : Nat) (inst : Instance) (s : Store) :
    R s (inst.runStart fuel s).2 := by
  unfold runStart
  split
  · exact hrefl s
  · split
    · exact hrefl s
    · exact Store.runFunc_along hrefl htrans hstep fuel s _ _ _

theorem runStart_agrees (fuel : Nat) (inst : Instance) (s : Store) :
    s.Agrees (inst.runStart fuel s).2 :=
  runStart_along .refl .trans Machine.step_agrees fuel inst s

end Instance

end Wasm
