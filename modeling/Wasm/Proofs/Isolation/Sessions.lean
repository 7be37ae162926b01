import Wasm.Proofs.Isolation.Instances
import Wasm.Proofs.Session.Transparency

/-! # Instances without imports are isolated

Calls of twins are answered in the same way (`Twins.Named.serve`). -/

namespace Wasm

open List Store Session

variable {imports : List (String × String × String)} {σ σ' σ1 : Session} {other module : String}
  {home : InstanceAddr} {fuel limit : Nat} {inst : Instance} {τ : Twins}

/-! ## Names -/

namespace Store

variable (s : Store)

variable {addr : InstanceAddr}

theorem mem_reached (n : Nat) {kept : List InstanceAddr} (h : addr ∈ kept) :
    addr ∈ s.reached n kept := by
  -- each round adds the instances that the kept ones reach, and takes none away
  induction n generalizing kept with
  | zero => exact h
  | succ n ih =>
    rw [reached]
    split
    · refine ih ?_
      split
      · exact mem_append_right _ h
      · exact h
    · exact ih h

theorem instance?_retain {roots : List InstanceAddr} (h : addr ∈ roots) :
    (s.retain roots).instance? addr = s.instance? addr := by
  have hkept : (⟨addr.index⟩ : InstanceAddr) ∈ s.reached s.instances.size roots :=
    s.mem_reached _ h
  rw [instance?, instance?, retain]
  rw [Array.getElem?_mapIdx]
  cases s.instances[addr.index]? with
  | none => rfl
  | some inst =>
    rw [Option.map_some, if_pos hkept]

end Store

namespace Session

variable {name : String} {α : Type}

theorem lookup_rename_self (name : String) (a : α) (names : List (String × α)) :
    (rename name a names).lookup name = some a := by
  simp [rename]

theorem lookup_rename_ne (h : name ≠ other) (a : α) (names : List (String × α)) :
    (rename other a names).lookup name = names.lookup name := by
  have hne : (name == other) = false := beq_eq_false_iff_ne.mpr h
  rw [rename, lookup_cons, hne]
  dsimp only
  induction names with
  | nil => rfl
  | cons entry names ih =>
    rw [filter_cons, lookup_cons]
    by_cases hother : entry.1 = other
    · have hname : (name == entry.1) = false := by rw [hother]; exact hne
      rw [if_neg (by simp [hother]), hname]
      exact ih
    · rw [if_pos (by simp [hother]), lookup_cons, ih]

theorem instance?_settle (σ : Session) (h : σ.instances.lookup name = some home) :
    σ.settle.store.instance? home = σ.store.instance? home := by
  refine σ.store.instance?_retain (mem_append_left _ ?_)
  obtain ⟨front, back, heq, -⟩ := lookup_eq_some_iff.mp h
  rw [heq]
  simp

/-! ## New instances -/

theorem find_eq_ok {names : List (String × α)} {a : α} (h : find name names σ = .ok a σ') :
    names.lookup name = some a ∧ σ' = σ := by
  rw [find] at h
  cases hname : names.lookup name with
  | none =>
    rw [hname] at h
    cases h
  | some b =>
    rw [hname] at h
    cases h
    exact ⟨rfl, rfl⟩

variable {bs : List Binding}

theorem bindings_eq_ok (h : bindings imports σ = .ok bs σ1) :
    σ1 = σ ∧ ∀ σ' : Session, σ'.item = σ.item → bindings imports σ' = .ok bs σ' := by
  induction imports generalizing bs σ1 with
  | nil =>
    cases h
    exact ⟨rfl, fun _ _ => rfl⟩
  | cons i imports ih =>
    obtain ⟨module, name, handle⟩ := i
    rw [bindings, bind_of_ok (get_apply σ)] at h
    cases hitem : σ.item handle with
    | none =>
      rw [hitem] at h
      cases h
    | some item =>
      rw [hitem] at h
      obtain ⟨rest, σ2, hrest, hdone⟩ := bind_eq_ok.mp h
      cases hdone
      obtain ⟨hσ, hsame⟩ := ih hrest
      refine ⟨hσ, fun σ' hσ' => ?_⟩
      rw [bindings, bind_of_ok (get_apply σ'), hσ', hitem]
      exact bind_of_ok (hsame σ' hσ')

theorem instantiate_eq {m : Module} (hm : σ.modules.lookup module = some m)
    (hbs : bindings imports σ = .ok bs σ) :
    instantiate fuel name module imports limit σ =
      match σ.store.instantiate fuel m bs limit with
      | (.failed e, t) => .error (.instantiation e) { σ with store := t }
      | (.outOfFuel, t) => .error .outOfFuel { σ with store := t }
      | (.ok home, t) =>
        let σ1 := settle { σ with store := t, instances := rename name home σ.instances }
        match σ1.store.instance? home with
        | some inst => .ok inst σ1
        | none => .error .noHandle σ1 := by
  have hfind : find module σ.modules σ = .ok m σ := by
    rw [find, hm]
    rfl
  have hstore : onStore (fun store => store.instantiate fuel m bs limit) σ =
      .ok (σ.store.instantiate fuel m bs limit).1
        { σ with store := (σ.store.instantiate fuel m bs limit).2 } := rfl
  rw [instantiate, bind_of_ok (get_apply σ), bind_of_ok hfind, bind_of_ok hbs, bind_of_ok hstore]
  rcases σ.store.instantiate fuel m bs limit with ⟨home | e | _, t⟩
  · let σ1 := settle { σ with store := t, instances := rename name home σ.instances }
    show (match σ1.store.instance? home with
      | some inst => pure inst
      | none => throw .noHandle : SessionM Instance) σ1 = _
    dsimp only
    cases σ1.store.instance? home with
    | none | some inst => rfl
  · rfl
  · rfl

theorem exists_of_instantiate (h : instantiate fuel name module imports limit σ = .ok inst σ1) :
    ∃ m bs home t, σ.modules.lookup module = some m ∧ bindings imports σ = .ok bs σ ∧
      σ.store.instantiate fuel m bs limit = (.ok home, t) ∧
      σ1 = settle { σ with store := t, instances := rename name home σ.instances } ∧
      t.instance? home = some inst := by
  have hparts := h
  obtain ⟨_, _, hget, hparts⟩ := bind_eq_ok.mp hparts
  cases hget
  obtain ⟨m, σ2, hfind, hparts⟩ := bind_eq_ok.mp hparts
  obtain ⟨hm, hσ2⟩ := find_eq_ok hfind
  obtain ⟨bs, σ3, hbs, -⟩ := bind_eq_ok.mp hparts
  rw [hσ2] at hbs
  rw [(bindings_eq_ok hbs).1] at hbs
  rw [instantiate_eq hm hbs] at h
  refine ⟨m, bs, ?_⟩
  rcases hs : σ.store.instantiate fuel m bs limit with ⟨home | e | _, t⟩
  · rw [hs] at h
    have hkept := instance?_settle { σ with store := t, instances := rename name home σ.instances }
      (lookup_rename_self name home σ.instances)
    dsimp only at h
    rw [hkept] at h
    cases hinst : t.instance? home with
    | none =>
      rw [hinst] at h
      cases h
    | some new =>
      rw [hinst] at h
      cases h
      exact ⟨home, t, hm, hbs, rfl, rfl, hinst⟩
  · rw [hs] at h
    cases h
  · rw [hs] at h
    cases h

end Session

/-! ## Twins in two sessions -/

/-- The name stands for the twins, in the same state. -/
structure Twins.Named (τ : Twins) (name : String) (σ σ' : Session) : Prop where
  here : σ.instances.lookup name = some τ.home
  there : σ'.instances.lookup name = some τ.home'
  stores : τ.In σ.store σ'.store

/-- Two answers are the same to the twins. -/
inductive Twins.SameAnswer (τ : Twins) :
    Except SessionError Answer → Except SessionError Answer → Prop
  | values {vs vs' : List Value} (h : τ.SameValues vs vs') :
      SameAnswer τ (.ok (.values vs)) (.ok (.values vs'))
  | error (e : SessionError) : SameAnswer τ (.error e) (.error e)

/-- A request that calls an export, without functions as arguments. -/
def Request.Calls (name : String) : Request → Prop
  | .invoke inst _ args => inst = name ∧ ∀ arg ∈ args, arg.Free
  | _ => False

namespace Twins

variable {name : String}

/-- Two items are at the same place of the twins. -/
inductive SameItem (τ : Twins) : Item → Item → Prop
  | func {a a' : FuncAddr} (h : τ.SameFunc a a') : SameItem τ (.func a) (.func a')
  | table (a a' : TableAddr) : SameItem τ (.table a) (.table a')
  | memory (a a' : MemoryAddr) : SameItem τ (.memory a) (.memory a')
  | global (a a' : GlobalAddr) : SameItem τ (.global a) (.global a')

theorem sameItem_export? (entry : String) :
    Option.Rel τ.SameItem (τ.inst.export? entry) (τ.inst'.export? entry) := by
  have hmap {α : Type} {xs xs' : Array α} (hal : Aligned xs xs') (item : α → Item)
      (hitem : ∀ a a', Beside xs xs' a a' → τ.SameItem (item a) (item a')) (i : Nat) :
      Option.Rel τ.SameItem (item <$> xs[i]?) (item <$> xs'[i]?) :=
    rel_cases (hal.getElem? i) .none fun _ _ h => .some (hitem _ _ h)
  rw [Instance.export?, Instance.export?, τ.module]
  cases τ.inst.module.findExport? entry with
  | none => exact .none
  | some found =>
    obtain ⟨name, kind, index⟩ := found
    cases kind with
    | func => exact hmap τ.funcs Item.func (fun _ _ h => .func h) index
    | table => exact hmap τ.tables Item.table (fun a a' _ => .table a a') index
    | memory => exact hmap τ.memories Item.memory (fun a a' _ => .memory a a') index
    | global =>
      show Option.Rel τ.SameItem (if index < τ.inst.importedGlobals.size then _ else _)
        (if index < τ.inst'.importedGlobals.size then _ else _)
      rw [τ.imported, τ.imported']
      exact hmap τ.globals Item.global (fun a a' _ => .global a a') index

def Since (τ : Twins) (name : String) (s : Store) (σ σ' : Session) : Prop :=
  τ.Named name σ σ' ∧ s.TouchedBy τ.inst σ.store

theorem lockstep_instanceOf (s : Store) :
    Lockstep Eq (τ.Since name s) (fun inst inst' => inst = τ.inst ∧ inst' = τ.inst')
      (instanceOf name) (instanceOf name) := by
  refine Lockstep.get.bind fun σ σ' hσ => ?_
  rw [Session.find, Session.find, hσ.1.here, hσ.1.there]
  refine Lockstep.bind (Q := fun a a' => a = τ.home ∧ a' = τ.home') (.pure ⟨rfl, rfl⟩) ?_
  rintro _ _ ⟨rfl, rfl⟩
  refine Lockstep.get.bind fun σ σ' hσ => ?_
  rw [hσ.1.stores.here, hσ.1.stores.there]
  exact .pure ⟨rfl, rfl⟩

variable {args : List Value}

variable {g g' : FuncAddr}

theorem lockstep_invokeFunc (fuel : Nat) (s : Store) (hg : τ.SameFunc g g') {args' : List Value}
    (hargs : τ.SameValues args args') :
    Lockstep Eq (τ.Since name s) τ.Outcomes (Session.onStore fun store => store.invoke fuel g args)
      (Session.onStore fun store => store.invoke fuel g' args') := by
  rintro σ σ' ⟨hnamed, htouched⟩
  obtain ⟨ho, hin, ht⟩ := hnamed.stores.invoke fuel hg hargs
  exact .ok ho ⟨⟨hnamed.here, hnamed.there, hin⟩, htouched.trans ht⟩

theorem lockstep_callFunc (fuel : Nat) (s : Store) (hg : τ.SameFunc g g')
    (hargs : ∀ arg ∈ args, arg.Free) :
    Lockstep Eq (τ.Since name s) τ.SameValues (callFunc fuel g args) (callFunc fuel g' args) := by
  refine Lockstep.get.bind fun σ σ' hσ => ?_
  rw [hσ.1.stores.funcType? hg]
  cases σ.store.funcType? g with
  | none => exact .throw rfl
  | some type =>
    dsimp only
    cases argumentError? type.params args with
    | some e => exact .throw rfl
    | none =>
      have hsame : τ.SameValues args args :=
        forall₂_same.mpr fun arg harg => (hargs arg harg).alike
      refine (lockstep_invokeFunc fuel s hg hsame).bind fun o o' ho => ?_
      cases ho with
      | results h => exact .pure h
      | trap t | outOfFuel => exact .throw rfl

theorem lockstep_invoke (fuel : Nat) (s : Store) (entry : String) (hargs : ∀ arg ∈ args, arg.Free) :
    Lockstep Eq (τ.Since name s) τ.SameValues (Session.invoke fuel name entry args)
      (Session.invoke fuel name entry args) := by
  have hlookUp : Lockstep Eq (τ.Since name s) (Option.Rel τ.SameItem) (lookUp name entry)
      (lookUp name entry) := by
    refine (lockstep_instanceOf s).bind ?_
    rintro _ _ ⟨rfl, rfl⟩
    exact .pure (sameItem_export? entry)
  refine hlookUp.bind fun item item' hitem => ?_
  cases hitem with
  | none => exact .throw rfl
  | some h =>
    cases h with
    | func hg => exact lockstep_callFunc fuel s hg hargs
    | table | memory | global => exact .throw rfl

theorem Named.serve (h : τ.Named name σ σ') (fuel : Nat) {calls : List Request}
    (hcalls : ∀ request ∈ calls, request.Calls name) :
    Forall₂ τ.SameAnswer (Session.serve fuel calls σ).1 (Session.serve fuel calls σ').1 ∧
      τ.Named name (Session.serve fuel calls σ).2 (Session.serve fuel calls σ').2 ∧
      σ.store.TouchedBy τ.inst (Session.serve fuel calls σ).2.store := by
  induction calls generalizing σ σ' with
  | nil => exact ⟨.nil, h, .refl⟩
  | cons request calls ih =>
    obtain ⟨hrequest, hrest⟩ := forall_mem_cons.mp hcalls
    -- an answer that is an error leaves twins too, so the rest is served in either case
    cases request with
    | invoke inst entry args =>
      obtain ⟨rfl, hargs⟩ := hrequest
      have hanswer : Lockstep Eq (τ.Since inst σ.store) (fun a a' => τ.SameAnswer (.ok a) (.ok a'))
          (Session.answer fuel (.invoke inst entry args))
          (Session.answer fuel (.invoke inst entry args)) :=
        (lockstep_invoke fuel σ.store entry hargs).bind fun _ _ hvs => .pure (.values hvs)
      have hends := hanswer σ σ' ⟨h, .refl⟩
      rw [Session.serve, Session.serve]
      generalize Session.answer fuel (.invoke inst entry args) σ = r at hends
      generalize Session.answer fuel (.invoke inst entry args) σ' = r' at hends
      cases hends with
      | ok ha hσ =>
        obtain ⟨hanswers, hnamed, htouched⟩ := ih hσ.1 hrest
        exact ⟨.cons ha hanswers, hnamed, hσ.2.trans htouched⟩
      | error he hσ =>
        cases he
        obtain ⟨hanswers, hnamed, htouched⟩ := ih hσ.1 hrest
        exact ⟨.cons (.error _) hanswers, hnamed, hσ.2.trans htouched⟩
    | _ => exact hrequest.elim

end Twins

/-! ## Creating an instance -/

namespace Session

variable {name : String}

variable (h : instantiate fuel name module imports limit σ = .ok inst σ1)
  (hm : inst.module.imports = #[])
include h hm

theorem twins_of_instantiate (hmodules : σ'.modules = σ.modules) (hitem : σ'.item = σ.item) :
    ∃ (τ : Twins) (σ1' : Session), τ.inst = inst ∧
      instantiate fuel name module imports limit σ' = .ok τ.inst' σ1' ∧
      τ.Named name σ1 σ1' := by
  obtain ⟨m, bs, home, t, hlookup, hbs, hs, rfl, hinst⟩ := exists_of_instantiate h
  rw [module_of_instantiate hs hinst] at hm
  obtain ⟨τ, t0, t', rfl, -, -, hs', hin⟩ := Store.twins_of_instantiate hm hs σ'.store bs
  have hself : τ.inst = inst := Option.some.inj (hin.here.symm.trans hinst)
  have hname := lookup_rename_self name τ.home σ.instances
  have hname' := lookup_rename_self name τ.home' σ'.instances
  have hkept := instance?_settle
    { σ with store := t, instances := rename name τ.home σ.instances } hname
  have hkept' := instance?_settle
    { σ' with store := t', instances := rename name τ.home' σ'.instances } hname'
  have hsettled : τ.In (settle { σ with
        store := t, instances := rename name τ.home σ.instances }).store
      (settle { σ' with store := t', instances := rename name τ.home' σ'.instances }).store :=
    { hin with here := hkept.trans hin.here, there := hkept'.trans hin.there }
  refine ⟨τ, _, hself, ?_, hname, hname', hsettled⟩
  rw [instantiate_eq (hmodules ▸ hlookup) ((bindings_eq_ok hbs).2 σ' hitem), hs']
  dsimp only
  rw [hkept', hin.there]

theorem apart_of_instantiate {other : Instance} (hw : other.Within σ.store) :
    other.SameIn σ.store σ1.store ∧ other.Disjoint inst := by
  obtain ⟨m, bs, home, t, hlookup, hbs, hs, rfl, hinst⟩ := exists_of_instantiate h
  rw [module_of_instantiate hs hinst] at hm
  obtain ⟨τ, t0, t', rfl, ha, htouched, -, hin⟩ := Store.twins_of_instantiate hm hs σ.store bs
  obtain rfl : τ.inst = inst := Option.some.inj (hin.here.symm.trans hinst)
  obtain ⟨hsame, hdisjoint⟩ := apart_of_allocate hm ha hw
  have hall : other.SameIn σ.store t := hsame.trans (hdisjoint.sameIn htouched)
  exact ⟨{ hall with }, hdisjoint⟩

theorem instance?_of_instantiate (hne : other ≠ name) {old : Instance}
    (hname : σ.instances.lookup other = some home) (hold : σ.store.instance? home = some old) :
    σ1.instances.lookup other = some home ∧ σ1.store.instance? home = some old := by
  obtain ⟨m, bs, newHome, t, hlookup, hbs, hs, rfl, hinst⟩ := exists_of_instantiate h
  rw [module_of_instantiate hs hinst] at hm
  obtain ⟨τ, t0, t', rfl, ha, htouched, -, hin⟩ := Store.twins_of_instantiate hm hs σ.store bs
  obtain ⟨tables, memories, -, -, -, hhome, rfl⟩ := exists_of_allocate hm ha
  -- the new instance takes the next free address, which is not that of the other
  have hname' : (rename name τ.home σ.instances).lookup other = some home := by
    rw [lookup_rename_ne hne, hname]
  have hlt : home.index < σ.store.instances.size := by
    obtain ⟨entry, hentry, -⟩ := Option.bind_eq_some_iff.mp hold
    exact (Array.getElem?_eq_some_iff.mp hentry).1
  refine ⟨hname', ?_⟩
  rw [instance?_settle _ hname', Store.instance?, htouched.agrees.instances, ← Store.instance?,
    instance?_of_push rfl, if_neg]
  · exact hold
  · rintro rfl
    exact Nat.lt_irrefl _ hlt

end Session

theorem Twins.Named.of_instantiate {name : String} (h : τ.Named name σ σ')
    (hinst : Session.instantiate fuel other module imports limit σ = .ok inst σ1)
    (hm : inst.module.imports = #[]) (hne : name ≠ other) : τ.Named name σ1 σ' := by
  obtain ⟨hname, hhome⟩ :=
    Session.instance?_of_instantiate hinst hm hne h.here h.stores.here
  obtain ⟨hsame, -⟩ := Session.apart_of_instantiate hinst hm h.stores.within
  exact ⟨hname, h.there, h.stores.of_sameIn hsame hhome⟩

theorem Twins.eq_of_sameAnswer (hinst : τ.inst' = τ.inst)
    {as as' : List (Except SessionError Answer)} (h : Forall₂ τ.SameAnswer as as') :
    as = as' := by
  induction h with
  | nil => rfl
  | cons ha _ ih =>
    rw [ih]
    cases ha with
    | error => rfl
    | values hvs => rw [Value.Alike.eq_list (τ.eq_of_sameFunc hinst) hvs]

namespace Session

variable {a b aModule bModule : String} {aImports bImports : List (String × String × String)}
  {aDepth bDepth : Nat} {A B : Instance} {front back : List Request} {σ2 σ3 : Session}

theorem isolated_of_first (hne : a ≠ b) (hA : A.module.imports = #[])
    (hB : B.module.imports = #[]) (hfront : ∀ request ∈ front, request.Calls a)
    (hback : ∀ request ∈ back, request.Calls a)
    (h : instantiate fuel a aModule aImports aDepth σ = .ok A σ1)
    (hσ2 : (serve fuel front σ1).2 = σ2)
    (h' : instantiate fuel b bModule bImports bDepth σ2 = .ok B σ3) :
    (serve fuel back σ3).1 = (serve fuel back σ2).1 ∧
      A.SameIn (serve fuel back σ3).2.store (serve fuel back σ2).2.store ∧
      B.SameIn σ3.store (serve fuel back σ3).2.store := by
  -- The first instance is its own twin.
  obtain ⟨τ, σ1', rfl, hsame, hnamed⟩ := twins_of_instantiate h hA rfl rfl
  rw [h] at hsame
  obtain ⟨hinst, rfl⟩ := EStateM.Result.ok.inj hsame
  have hhome : τ.home' = τ.home := Option.some.inj (hnamed.there.symm.trans hnamed.here)
  obtain ⟨-, hnamed2, -⟩ := hnamed.serve fuel hfront
  rw [hσ2] at hnamed2
  -- It still is when the second has been created in one of two sessions.
  have hnamed3 : τ.Named a σ3 σ2 := hnamed2.of_instantiate h' hB hne
  have hdisjoint := (apart_of_instantiate h' hB hnamed2.stores.within).2
  obtain ⟨hanswers, hend, htouched⟩ := hnamed3.serve fuel hback
  exact ⟨τ.eq_of_sameAnswer hinst.symm hanswers, hend.stores.sameIn hinst.symm hhome,
    hdisjoint.symm.sameIn htouched⟩

theorem isolated_of_second (hA : A.module.imports = #[])
    (hB : B.module.imports = #[]) (hback : ∀ request ∈ back, request.Calls a)
    (h : instantiate fuel b bModule bImports bDepth σ = .ok B σ1)
    (h' : instantiate fuel a aModule aImports aDepth σ1 = .ok A σ2) :
    ∃ (τ : Twins) (σ0 : Session), τ.inst = A ∧
      instantiate fuel a aModule aImports aDepth σ = .ok τ.inst' σ0 ∧
      Forall₂ τ.SameAnswer (serve fuel back σ2).1 (serve fuel back σ0).1 ∧
      τ.In (serve fuel back σ2).2.store (serve fuel back σ0).2.store ∧
      B.SameIn σ1.store (serve fuel back σ2).2.store := by
  -- Creating `B` gave a name to an instance, and instances are not what imports are bound to.
  have hnames : σ.modules = σ1.modules ∧ σ.item = σ1.item := by
    obtain ⟨m, bs, home, t, -, -, -, rfl, -⟩ := exists_of_instantiate h
    exact ⟨rfl, rfl⟩
  have hwithin : B.Within σ1.store := by
    obtain ⟨τ, _, rfl, -, hnamed⟩ := twins_of_instantiate h hB rfl rfl
    exact hnamed.stores.within
  -- So `A` can be created in the session from before, where it has a twin.
  obtain ⟨hcreated, hdisjoint⟩ := apart_of_instantiate h' hA hwithin
  obtain ⟨τ, σ0, rfl, hinst, hnamed⟩ := twins_of_instantiate h' hA hnames.1 hnames.2
  obtain ⟨hanswers, hend, htouched⟩ := hnamed.serve fuel hback
  exact ⟨τ, σ0, rfl, hinst, hanswers, hend.stores, hcreated.trans (hdisjoint.sameIn htouched)⟩

/-- **Instances without imports are isolated**: no call of what `A` exports changes an object of
    `B`, and each is answered as if `B` had never been created.  A session without `B` has `A`
    itself if `A` was there first, and otherwise a twin of `A` at other addresses. -/
theorem isolated (hne : a ≠ b) (hA : A.module.imports = #[]) (hB : B.module.imports = #[])
    (hfront : ∀ request ∈ front, request.Calls a) (hback : ∀ request ∈ back, request.Calls a)
    (σ : Session) :
    (∀ σ1 σ3 : Session, instantiate fuel a aModule aImports aDepth σ = .ok A σ1 →
      let σ2 := (serve fuel front σ1).2
      instantiate fuel b bModule bImports bDepth σ2 = .ok B σ3 →
      let r := serve fuel back σ3
      let r0 := serve fuel back σ2
      r.1 = r0.1 ∧ A.SameIn r.2.store r0.2.store ∧ B.SameIn σ3.store r.2.store) ∧
    ∀ σ1 σ2 : Session, instantiate fuel b bModule bImports bDepth σ = .ok B σ1 →
      instantiate fuel a aModule aImports aDepth σ1 = .ok A σ2 →
      ∃ (τ : Twins) (σ0 : Session), τ.inst = A ∧
        instantiate fuel a aModule aImports aDepth σ = .ok τ.inst' σ0 ∧
        let r := serve fuel back σ2
        let r0 := serve fuel back σ0
        Forall₂ τ.SameAnswer r.1 r0.1 ∧ τ.In r.2.store r0.2.store ∧ B.SameIn σ1.store r.2.store :=
  ⟨fun _ _ h h' => isolated_of_first hne hA hB hfront hback h rfl h',
    fun _ _ h h' => isolated_of_second hA hB hback h h'⟩

def counter : ByteArray :=
  ⟨#[0x00, 0x61, 0x73, 0x6D, 0x01, 0x00, 0x00, 0x00,
    0x01, 0x05, 0x01, 0x60, 0x00, 0x01, 0x7F, 0x03, 0x02, 0x01, 0x00,
    0x06, 0x06, 0x01, 0x7F, 0x01, 0x41, 0x00, 0x0B,
    0x07, 0x08, 0x01, 0x04, 0x6E, 0x65, 0x78, 0x74, 0x00, 0x00,
    0x0A, 0x0D, 0x01, 0x0B, 0x00, 0x23, 0x00, 0x41, 0x01, 0x6A, 0x24, 0x00, 0x23, 0x00, 0x0B]⟩

deriving instance DecidableEq for SessionError, Answer

/-- Two counters of one module, each of which counts on its own. -/
theorem isolated_counter : ∃ (m : Module) (A B : Instance) (σ1 σ2 : Session),
    Module.compile .standard counter = .ok m ∧
    instantiate 9 "a" "counter" [] 16 { empty with modules := [("counter", m)] } = .ok A σ1 ∧
    instantiate 9 "b" "counter" [] 16 σ1 = .ok B σ2 ∧
    let calls : List Request := [.invoke "a" "next" [], .invoke "a" "next" []]
    (serve 9 calls σ2).1 = [.ok (.values [.i32 1]), .ok (.values [.i32 2])] ∧
    (serve 9 calls σ1).1 = [.ok (.values [.i32 1]), .ok (.values [.i32 2])] ∧
    B.SameIn σ2.store (serve 9 calls σ2).2.store ∧
    A.SameIn σ1.store (serve 9 [.invoke "b" "next" []] σ2).2.store := by
  have hrun : ∃ m, Module.compile .standard counter = .ok m ∧
      ∃ A σ1, (instantiate 9 "a" "counter" [] 16).run { empty with modules := [("counter", m)] } =
        .ok A σ1 ∧
      ∃ B σ2, (instantiate 9 "b" "counter" [] 16).run σ1 = .ok B σ2 ∧
        A.module.imports.size = 0 ∧ B.module.imports.size = 0 ∧
        (serve 9 [.invoke "a" "next" [], .invoke "a" "next" []] σ2).1 =
          [.ok (.values [.i32 1]), .ok (.values [.i32 2])] := by
    set_option synthInstance.maxSize 256 in decide +kernel
  obtain ⟨m, hm, A, σ1, hA, B, σ2, hB, hsizeA, hsizeB, hanswers⟩ := hrun
  have himportsA := Array.eq_empty_of_size_eq_zero hsizeA
  have himportsB := Array.eq_empty_of_size_eq_zero hsizeB
  have hcalls (name : String) : ∀ request ∈ [Request.invoke name "next" []],
    request.Calls name := by
    intro request hrequest
    cases mem_singleton.mp hrequest
    exact ⟨rfl, by simp⟩
  have htwice : ∀ request ∈ [Request.invoke "a" "next" [], .invoke "a" "next" []],
      request.Calls "a" := by
    simpa using hcalls "a"
  have hnone (name : String) : ∀ request ∈ ([] : List Request), request.Calls name := by
    simp
  obtain ⟨hsame, -, hspared⟩ := (isolated (by decide) himportsA himportsB (hnone "a") htwice _).1
    σ1 σ2 hA hB
  obtain ⟨-, -, -, -, -, -, hspared'⟩ := (isolated (by decide) himportsB himportsA (hnone "b")
    (hcalls "b") _).2 σ1 σ2 hA hB
  exact ⟨m, A, B, σ1, σ2, hm, hA, hB, hanswers, hsame.symm.trans hanswers, hspared, hspared'⟩

end Session

end Wasm
