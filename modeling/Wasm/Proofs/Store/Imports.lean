import Wasm.Proofs.Store.Development
import Wasm.Proofs.Store.Hosting

/-! # The items of imports

The items of one kind are those of its imports, in order (`forall₂_ofKind`). -/

namespace Wasm

open List

variable {r : Resolved} {count start n : Nat}

/-! ## Resolving -/

namespace Item

def func? : Item → Option FuncAddr
  | func addr => some addr
  | _ => none

def table? : Item → Option TableAddr
  | table addr => some addr
  | _ => none

def memory? : Item → Option MemoryAddr
  | memory addr => some addr
  | _ => none

def global? : Item → Option GlobalAddr
  | global addr => some addr
  | _ => none

end Item

def Import.ofKind (kind : ItemKind) (imports : List Import) : List Import :=
  imports.filter fun i => decide (i.desc.kind = kind)

/-- An import is given the item bound to its names. -/
structure Store.Gives (s : Store) (types : Array FuncType) (bindings : List Binding)
    (i : Import) (item : Item) : Prop where
  bound : Binding.find? bindings i.module i.name = some item
  offered : s.offers types i.desc item = true

variable {bindings : List Binding} {i : Nat} {imports : List Import} {kind : ItemKind} {s : Store}
  {types : Array FuncType} {α : Type}

namespace Store.Gives

variable {i : Import}

theorem func {addr : FuncAddr} (h : s.Gives types bindings i (.func addr)) :
    ∃ index type, i.desc = .func index ∧ types[index]? = some type ∧
      s.funcType? addr = some type := by
  have ho := h.offered
  cases hdesc : i.desc with
  | func index =>
    rw [hdesc, offers] at ho
    split at ho
    · next type htype => exact ⟨index, type, rfl, htype, eq_of_beq ho⟩
    · cases ho
  | table | memory | global => rw [hdesc] at ho; cases ho

theorem table {addr : TableAddr} (h : s.Gives types bindings i (.table addr)) :
    ∃ type t, i.desc = .table type ∧ s.tables[addr.index]? = some t ∧ t.element = type.element ∧
      t.type.limits.matchesDeclared type.limits = true := by
  have ho := h.offered
  cases hdesc : i.desc with
  | table type =>
    rw [hdesc, offers] at ho
    split at ho
    · next t ht =>
        rw [Bool.and_eq_true, beq_iff_eq] at ho
        exact ⟨type, t, rfl, ht, ho⟩
    · cases ho
  | func | memory | global => rw [hdesc] at ho; cases ho

theorem memory {addr : MemoryAddr} (h : s.Gives types bindings i (.memory addr)) :
    ∃ limits m, i.desc = .memory limits ∧ s.memories[addr.index]? = some m ∧
      m.limits.matchesDeclared limits = true := by
  have ho := h.offered
  cases hdesc : i.desc with
  | memory limits =>
    rw [hdesc, offers] at ho
    split at ho
    · next m hm => exact ⟨limits, m, rfl, hm, ho⟩
    · cases ho
  | func | table | global => rw [hdesc] at ho; cases ho

theorem global {addr : GlobalAddr} (h : s.Gives types bindings i (.global addr)) :
    ∃ type g, i.desc = .global type ∧ s.globals[addr.index]? = some g ∧ g.type = type := by
  have ho := h.offered
  cases hdesc : i.desc with
  | global type =>
    rw [hdesc, offers] at ho
    split at ho
    · next g hg => exact ⟨type, g, rfl, hg, eq_of_beq ho⟩
    · cases ho
  | func | table | memory => rw [hdesc] at ho; cases ho

end Store.Gives

theorem Store.Gives.kind_eq {i : Import} {item : Item} (h : s.Gives types bindings i item) :
    item.kind = i.desc.kind := by
  have ho := h.offered
  unfold Store.offers at ho
  split at ho
  iterate 4 · next hdesc => rw [hdesc]; rfl
  · cases ho

theorem Resolved.foldl_push (items : List Item) (r : Resolved) : items.foldl Resolved.push r =
      ⟨r.funcs ++ (items.filterMap Item.func?).toArray,
        r.tables ++ (items.filterMap Item.table?).toArray,
        r.memories ++ (items.filterMap Item.memory?).toArray,
        r.globals ++ (items.filterMap Item.global?).toArray⟩ := by
  induction items generalizing r with
  | nil => simp
  | cons item items ih =>
    rw [foldl_cons, ih]
    cases item <;> simp [Resolved.push, filterMap_cons, Item.func?, Item.table?, Item.memory?,
      Item.global?]

theorem Store.resolve_eq_foldl {r' : Resolved} (h : s.resolve types bindings imports r = .ok r') :
    ∃ items, Forall₂ (s.Gives types bindings) imports items ∧ r' = items.foldl Resolved.push r := by
  induction imports generalizing r with
  | nil =>
    cases h
    exact ⟨[], .nil, rfl⟩
  | cons i imports ih =>
    rw [resolve] at h
    split at h
    · cases h
    · next item hitem =>
        split at h
        · next ho =>
            obtain ⟨items, hitems, hr⟩ := ih h
            exact ⟨item :: items, .cons ⟨hitem, ho⟩ hitems, hr⟩
        · cases h

theorem forall₂_ofKind {wrap : α → Item} {addr? : Item → Option α}
    (hcases : ∀ item : Item, if item.kind = kind then ∃ a, item = wrap a ∧ addr? item = some a
      else addr? item = none)
    {items : List Item} (h : Forall₂ (s.Gives types bindings) imports items) :
    Forall₂ (fun i a => s.Gives types bindings i (wrap a)) (Import.ofKind kind imports)
      (items.filterMap addr?) := by
  induction h with
  | nil => exact .nil
  | @cons i item imports items hgives _ ih =>
    have hitem := hcases item
    rw [hgives.kind_eq] at hitem
    rw [Import.ofKind, filter_cons]
    by_cases hkind : i.desc.kind = kind
    · rw [if_pos hkind] at hitem
      obtain ⟨a, rfl, ha⟩ := hitem
      rw [if_pos (decide_eq_true hkind), filterMap_cons_some ha]
      exact .cons hgives ih
    · rw [if_neg hkind] at hitem
      rw [if_neg (by simpa using hkind), filterMap_cons_none hitem]
      exact ih

namespace ImportDesc

variable (desc : ImportDesc)
include desc

theorem isSome_func? : desc.func?.isSome = decide (desc.kind = .func) := by
  cases desc <;> rfl

theorem isSome_table? : desc.table?.isSome = decide (desc.kind = .table) := by
  cases desc <;> rfl

theorem isSome_memory? : desc.memory?.isSome = decide (desc.kind = .memory) := by
  cases desc <;> rfl

theorem isSome_global? : desc.global?.isSome = decide (desc.kind = .global) := by
  cases desc <;> rfl

end ImportDesc

theorem forall₂_declared {declared? : ImportDesc → Option α}
    (hcases : ∀ desc : ImportDesc, (declared? desc).isSome = decide (desc.kind = kind))
    (imports : List Import) :
    Forall₂ (fun i a => declared? i.desc = some a) (Import.ofKind kind imports)
      ((imports.map Import.desc).filterMap declared?) := by
  induction imports with
  | nil => exact .nil
  | cons i imports ih =>
    rw [Import.ofKind, filter_cons, map_cons, ← hcases]
    cases ha : declared? i.desc with
    | some a =>
      rw [filterMap_cons_some ha]
      exact .cons ha ih
    | none =>
      rw [filterMap_cons_none ha]
      exact ih

/-- What imports were resolved to, kind by kind. -/
structure Resolved.Given (s : Store) (types : Array FuncType) (bindings : List Binding)
    (imports : List Import) (r : Resolved) : Prop where
  funcs : Forall₂ (fun i addr => s.Gives types bindings i (.func addr))
    (Import.ofKind .func imports) r.funcs.toList
  tables : Forall₂ (fun i addr => s.Gives types bindings i (.table addr))
    (Import.ofKind .table imports) r.tables.toList
  memories : Forall₂ (fun i addr => s.Gives types bindings i (.memory addr))
    (Import.ofKind .memory imports) r.memories.toList
  globals : Forall₂ (fun i addr => s.Gives types bindings i (.global addr))
    (Import.ofKind .global imports) r.globals.toList

theorem Store.resolve_given (h : s.resolve types bindings imports .empty = .ok r) :
    r.Given s types bindings imports := by
  obtain ⟨items, hitems, rfl⟩ := resolve_eq_foldl h
  rw [Resolved.foldl_push]
  simp only [Resolved.empty, Array.empty_append]
  constructor
  · exact forall₂_ofKind (fun item => by cases item <;> simp [Item.kind, Item.func?]) hitems
  · exact forall₂_ofKind (fun item => by cases item <;> simp [Item.kind, Item.table?]) hitems
  · exact forall₂_ofKind (fun item => by cases item <;> simp [Item.kind, Item.memory?]) hitems
  · exact forall₂_ofKind (fun item => by cases item <;> simp [Item.kind, Item.global?]) hitems

theorem Resolved.Given.eq_empty (h : r.Given s types bindings []) : r = .empty := by
  obtain ⟨⟨funcs⟩, ⟨tables⟩, ⟨memories⟩, ⟨globals⟩⟩ := r
  cases forall₂_nil_left_iff.mp h.funcs
  cases forall₂_nil_left_iff.mp h.tables
  cases forall₂_nil_left_iff.mp h.memories
  cases forall₂_nil_left_iff.mp h.globals
  rfl

/-- An item is bound to the import of this number. -/
def Module.Binds (m : Module) (bindings : List Binding) (kind : ItemKind) (index : Nat)
    (item : Item) : Prop :=
  ∃ i, (Import.ofKind kind m.imports.toList)[index]? = some i ∧
    Binding.find? bindings i.module i.name = some item

/-! ## New addresses -/

theorem exists_of_forall₂ {β : Type} {R : α → β → Prop} {xs : List α} {ys : List β}
    (h : Forall₂ R xs ys) {x : α} (hx : xs[i]? = some x) : ∃ y, ys[i]? = some y ∧ R x y := by
  obtain ⟨hlt, rfl⟩ := List.getElem?_eq_some_iff.mp hx
  have hlt' := h.length_eq ▸ hlt
  exact ⟨ys[i], getElem?_eq_getElem hlt', h.get hlt hlt'⟩

def freshAddrs {α : Type} (addr : Nat → α) (start count : Nat) : Array α :=
  ((range' start count).map addr).toArray

theorem getElem?_freshAddrs (addr : Nat → α) (start : Nat) (h : i < count) :
    (freshAddrs addr start count)[i]? = some (addr (start + i)) := by
  rw [freshAddrs, getElem?_toArray, getElem?_map, getElem?_range' h, Nat.one_mul]
  rfl

theorem size_freshAddrs (addr : Nat → α) (start count : Nat) :
    (freshAddrs addr start count).size = count := by
  simp [freshAddrs]

theorem of_getElem?_freshAddrs {addr : Nat → α} {a : α}
    (h : (freshAddrs addr start count)[i]? = some a) : i < count ∧ a = addr (start + i) := by
  have hlt : i < count := by
    rw [← size_freshAddrs addr start count]
    exact (Array.getElem?_eq_some_iff.mp h).1
  rw [getElem?_freshAddrs addr start hlt] at h
  exact ⟨hlt, (Option.some.inj h).symm⟩

theorem getElem?_append_add (xs : Array α) (ys : List α) (i : Nat) :
    (xs ++ ys.toArray)[xs.size + i]? = ys[i]? := by
  rw [Array.getElem?_append_right (Nat.le_add_right _ _), Nat.add_sub_cancel_left, getElem?_toArray]

/-! ## Addresses of one kind -/

/-- Imported addresses first, then those from `start` on. -/
structure Behind {α β γ : Type} (Bound : Nat → β → Prop) (Q : α → γ → Prop) (index : β → Nat)
    (items : Array α) (n start : Nat) (addrs : Array β) (objects : Array γ) : Prop where
  size : addrs.size = items.size
  object : ∀ {i : Nat} {type : α} {a : β}, items[i]? = some type → addrs[i]? = some a →
    ∃ x, objects[index a]? = some x ∧ Q type x
  bound : ∀ {i : Nat} {a : β}, addrs[i]? = some a → i < n → Bound i a
  fresh : ∀ {i : Nat} {a : β}, addrs[i]? = some a → n ≤ i → index a = start + (i - n)

namespace Behind

variable {β γ : Type} {Bound : Nat → β → Prop} {Q : α → γ → Prop} {index : β → Nat}
  {items : Array α} {addrs : Array β} {objects : Array γ}

theorem exists_address (h : Behind Bound Q index items n start addrs objects) {type : α}
    (ht : items[i]? = some type) : ∃ a, addrs[i]? = some a :=
  ⟨_, Array.getElem?_eq_getElem (h.size ▸ (Array.getElem?_eq_some_iff.mp ht).1)⟩

theorem exists_item (h : Behind Bound Q index items n start addrs objects) {a : β}
    (ha : addrs[i]? = some a) : ∃ type, items[i]? = some type :=
  ⟨_, Array.getElem?_eq_getElem (h.size ▸ (Array.getElem?_eq_some_iff.mp ha).1)⟩

end Behind

namespace Imported

variable {β γ : Type} {wrap : β → Item} {declared? : ImportDesc → Option α} {items : Array α}
  {addrs : Array β}

variable (h : Imported ((imports.map Import.desc).filterMap declared?) items n)
  (hkind : ∀ desc : ImportDesc, (declared? desc).isSome = decide (desc.kind = kind))
  (hgiven : Forall₂ (fun i a => s.Gives types bindings i (wrap a))
    (Import.ofKind kind imports) addrs.toList)
include h hkind hgiven

theorem size_given : addrs.size = n := by
  rw [← h.length, ← (forall₂_declared hkind imports).length_eq, hgiven.length_eq,
    Array.length_toList]

theorem given {index : Nat} {a : β} (ha : addrs[index]? = some a) :
    ∃ i type, (Import.ofKind kind imports)[index]? = some i ∧ items[index]? = some type ∧
      declared? i.desc = some type ∧ s.Gives types bindings i (wrap a) := by
  rw [← Array.getElem?_toList] at ha
  obtain ⟨i, hi, hgives⟩ := exists_of_forall₂ hgiven.flip ha
  obtain ⟨type, htype, htype'⟩ := exists_of_forall₂ (forall₂_declared hkind imports) hi
  rw [h.eq] at htype
  obtain ⟨hlt, hget⟩ := List.getElem?_eq_some_iff.mp htype
  refine ⟨i, type, hi, ?_, htype', hgives⟩
  rw [getElem_take] at hget
  rw [← Array.getElem?_toList]
  exact List.getElem?_eq_some_iff.mpr ⟨_, hget⟩

theorem behind {mk : Nat → β} {index : β → Nat} (hmk : ∀ k, index (mk k) = k) {objects : Array γ}
    {new : List γ} {Q : α → γ → Prop} (hnew : Forall₂ Q (items.toList.drop n) new)
    (hold : ∀ {i : Import} {type : α} {a : β}, declared? i.desc = some type →
      s.Gives types bindings i (wrap a) → ∃ x, objects[index a]? = some x ∧ Q type x) :
    Behind (fun i a => ∃ imp, (Import.ofKind kind imports)[i]? = some imp ∧
        Binding.find? bindings imp.module imp.name = some (wrap a)) Q index items n objects.size
      (addrs ++ freshAddrs mk objects.size new.length) (objects ++ new.toArray) := by
  have hsize := h.size_given hkind hgiven
  have hcount : new.length = items.size - n := by
    rw [← hnew.length_eq, length_drop, Array.length_toList]
  have hle := h.le
  have himported : ∀ {i a}, (addrs ++ freshAddrs mk objects.size new.length)[i]? = some a →
      i < n → addrs[i]? = some a := by
    intro i a ha hi
    rwa [Array.getElem?_append_left (hsize.symm ▸ hi)] at ha
  have hfresh : ∀ {i a}, (addrs ++ freshAddrs mk objects.size new.length)[i]? = some a →
      n ≤ i → index a = objects.size + (i - n) := by
    intro i a ha hi
    rw [Array.getElem?_append_right (hsize.symm ▸ hi), hsize] at ha
    rw [(of_getElem?_freshAddrs ha).2, hmk]
  refine ⟨?_, ?_, ?_, hfresh⟩
  · rw [Array.size_append, size_freshAddrs, hsize, hcount, Nat.add_sub_cancel' hle]
  · intro i type a ht ha
    by_cases hi : i < n
    · obtain ⟨imp, type', -, ht', hdesc, hgives⟩ := h.given hkind hgiven (himported ha hi)
      cases ht.symm.trans ht'
      obtain ⟨x, hx, hQ⟩ := hold hdesc hgives
      exact ⟨x, getElem?_append_some hx, hQ⟩
    · have hdrop : (items.toList.drop n)[i - n]? = some type := by
        rw [getElem?_drop, Nat.add_sub_cancel' (Nat.le_of_not_lt hi), Array.getElem?_toList, ht]
      obtain ⟨x, hx, hQ⟩ := exists_of_forall₂ hnew hdrop
      exact ⟨x, by rw [hfresh ha (Nat.le_of_not_lt hi), getElem?_append_add, hx], hQ⟩
  · intro i a ha hi
    obtain ⟨imp, -, himp, -, -, hgives⟩ := h.given hkind hgiven (himported ha hi)
    exact ⟨imp, himp, hgives.bound⟩

end Imported

end Wasm
