/-
The creation references of native functions: each is to be consumed exactly once.

`buildFunction` creates a function value with one reference, which Swift owns. The handle
has `autoFree` false, so no deinit gives the reference back: it leaves Swift only when
`load()` passes the value to `JS_SetModuleExport`, which moves it into a cell or frees it.
A value that never gets there is leaked, and one that gets there twice is released once
too often.

A value is `Pending` while it is the current value of a property of a module whose init
callback can still run. A value that is neither pending nor handed over is lost for good,
and so is one that was handed over twice; `consumed_once_iff` says which runs lose none.
-/
import QuickJSSwift.Session
import QuickJSSwift.Lib.Run

set_option autoImplicit false

namespace QuickJSSwift.Session

open Utf Text ModuleDef

variable {swift : Stdlib}

/-! ## What must come of a reference -/

/-- Nothing has crashed, and every function value that was ever built has had its creation
reference moved or freed once. -/
def Consumed (s : State) : Prop :=
  s.crashed = false ∧ ∀ v < s.valueCount, (s.values v).handovers = 1

/-- The init callback of the module can still run. -/
def JSModule.Awaits (m : JSModule) : Prop := m.live = true ∧ m.loaded = false

/-- A `load()` that is still to come hands the value over. -/
def Pending (s : State) (v : ℕ) : Prop :=
  ∃ i, (s.modules i).Awaits ∧ ∃ kv ∈ (s.modules i).properties, (s.objects kv.2).cValue = some v

/-- Something has gone wrong that nothing can make good. -/
def Lost (s : State) : Prop :=
  s.crashed = true ∨ ∃ v < s.valueCount, 2 ≤ (s.values v).handovers ∨
    ((s.values v).handovers = 0 ∧ ¬ Pending s v)

/-- The books are in order: a value that was not handed over is pending, and the value of
an object in a module that awaits its callback is new and in no other such module. -/
structure Balanced (s : State) : Prop where
  running : s.crashed = false
  once : ∀ v < s.valueCount, (s.values v).handovers = 1 ∨
    ((s.values v).handovers = 0 ∧ Pending s v)
  fresh : ∀ i, (s.modules i).Awaits → ∀ kv ∈ (s.modules i).properties,
    ∀ v, (s.objects kv.2).cValue = some v → (s.values v).handovers = 0
  sole : ∀ i j, (s.modules i).Awaits → (s.modules j).Awaits →
    ∀ kv ∈ (s.modules i).properties, ∀ kv' ∈ (s.modules j).properties, kv.2 = kv'.2 → i = j

/-- Freeing the modules for which `keep` is false frees none that awaits its callback and
has properties. -/
def FreesNonePending (s : State) (keep : JSModule → Bool) : Prop :=
  ∀ i, (s.modules i).Awaits → keep (s.modules i) = false → (s.modules i).properties = []

/-- When a step is good for the creation references. What is placed into a new module has
not been built before, or has been handed over since; `function` adds a new name to a
module that awaits its callback; every export that `load()` sets has a variable; and no
module is freed before its callback has run. -/
def HandsOverOnce (swift : Stdlib) (s : State) : Step → Prop
  | .module _ children _ => ∀ kv ∈ s.builderProperties swift children,
      ∀ v, (s.objects kv.2).cValue = some v → (s.values v).handovers = 1
  | .function i _ name _ _ => i < s.moduleCount → (s.modules i).held = true →
      (s.modules i).Awaits ∧ ¬ swift.HasKey (s.modules i).properties name
  | .evaluate i interned => (s.modules i).Awaits → (s.modules i).func_created = true →
      ∀ kv ∈ (s.modules i).properties, settable interned (s.modules i).export_entries kv.1 = true
  | .freeNotResolved => FreesNonePending s JSModule.resolved
  | .freeNotEvaluated => FreesNonePending s JSModule.loaded
  | _ => True

/-- The handles are dropped and `JS_FreeContext` frees all modules. The deinit of a
`JSFunction` frees nothing. -/
def State.freeContext (s : State) : State :=
  { s.js_free_modules (fun _ => false) with
    objects := fun o => { s.objects o with users := 0 }
    modules := fun i => { (s.js_free_modules (fun _ => false)).modules i with
      registered := false
      users := 0 } }

/-! ## Steps that touch no reference -/

/-- What the books are about is the same. -/
structure SameBooks (s s' : State) : Prop where
  crashed : s'.crashed = s.crashed
  valueCount : s'.valueCount = s.valueCount
  handovers : ∀ v, (s'.values v).handovers = (s.values v).handovers
  cValue : ∀ o, (s'.objects o).cValue = (s.objects o).cValue
  awaits : ∀ i, (s'.modules i).Awaits ↔ (s.modules i).Awaits
  properties : ∀ i, (s'.modules i).properties = (s.modules i).properties

theorem SameBooks.pending {s s' : State} (h : SameBooks s s') (v : ℕ) :
    Pending s' v ↔ Pending s v := by
  unfold Pending
  simp only [h.awaits, h.properties, h.cValue]

theorem SameBooks.lost {s s' : State} (h : SameBooks s s') : Lost s' ↔ Lost s := by
  unfold Lost
  simp only [h.crashed, h.valueCount, h.handovers, h.pending]

theorem SameBooks.balanced {s s' : State} (h : SameBooks s s') (hb : Balanced s) :
    Balanced s' := by
  refine ⟨h.crashed.trans hb.running, ?_, ?_, ?_⟩
  · intro v hv
    rw [h.handovers, h.pending]
    exact hb.once v (hv.trans_eq h.valueCount)
  · intro i hi kv hkv v hv
    rw [h.awaits] at hi
    rw [h.properties] at hkv
    rw [h.cValue] at hv
    rw [h.handovers]
    exact hb.fresh i hi kv hkv v hv
  · intro i j hi hj kv hkv kv' hkv' heq
    rw [h.awaits] at hi hj
    rw [h.properties] at hkv hkv'
    exact hb.sole i j hi hj kv hkv kv' hkv' heq

theorem SameBooks.refl (s : State) : SameBooks s s :=
  ⟨rfl, rfl, fun _ => rfl, fun _ => rfl, fun _ => Iff.rfl, fun _ => rfl⟩

theorem sameBooks_setModule (s : State) (i : ℕ) {f : JSModule → JSModule}
    (hawaits : (f (s.modules i)).Awaits ↔ (s.modules i).Awaits)
    (hprops : (f (s.modules i)).properties = (s.modules i).properties) :
    SameBooks s (s.setModule i f) := by
  refine ⟨rfl, rfl, fun _ => rfl, fun _ => rfl, ?_, ?_⟩
  · intro j
    unfold State.setModule
    dsimp only
    by_cases hj : j = i
    · rw [hj, Function.update_self]
      exact hawaits
    · rw [Function.update_of_ne hj]
  · intro j
    unfold State.setModule
    dsimp only
    by_cases hj : j = i
    · rw [hj, Function.update_self]
      exact hprops
    · rw [Function.update_of_ne hj]

theorem sameBooks_setObject (s : State) (o : ℕ) {f : JSFunction → JSFunction}
    (hvalue : (f (s.objects o)).cValue = (s.objects o).cValue) :
    SameBooks s (s.setObject o f) := by
  refine ⟨rfl, rfl, fun _ => rfl, ?_, fun _ => Iff.rfl, fun _ => rfl⟩
  intro o'
  unfold State.setObject
  dsimp only
  by_cases ho : o' = o
  · rw [ho, Function.update_self]
    exact hvalue
  · rw [Function.update_of_ne ho]

/-- A new object has not been built. -/
theorem sameBooks_newFunction {s : State} (h : Coherent swift s []) (name : List Char) (argc : ℤ)
    (block users : ℕ) : SameBooks s (s.newFunction name argc block users) := by
  have hset := sameBooks_setObject s s.objectCount (f := fun _ => ⟨name, argc, block, none, users⟩)
    (h.objectsBeyond s.objectCount le_rfl).2.symm
  exact ⟨hset.crashed, hset.valueCount, hset.handovers, hset.cValue, hset.awaits, hset.properties⟩

theorem sameBooks_unregister (s : State) (reuses : Option ℕ) :
    SameBooks s (s.unregister reuses) := by
  cases reuses with
  | none => exact .refl s
  | some i =>
    rw [State.unregister]
    split_ifs
    · exact .refl s
    · exact sameBooks_setModule s i Iff.rfl rfl

theorem builderProperties_unregister (s : State) (reuses : Option ℕ) (children : List ℕ) :
    (s.unregister reuses).builderProperties swift children
      = s.builderProperties swift children := by
  have hobjects : (s.unregister reuses).objects = s.objects ∧
      (s.unregister reuses).objectCount = s.objectCount := by
    cases reuses with
    | none => exact ⟨rfl, rfl⟩
    | some i =>
      rw [State.unregister]
      split_ifs <;> exact ⟨rfl, rfl⟩
  unfold State.builderProperties
  rw [hobjects.1, hobjects.2]

/-! ## Registering a module -/

/-- A value that no `load()` to come hands over stays so, as long as slots appear only for
values that are new. -/
theorem lost_of_lost {s s' : State} (hlost : Lost s)
    (hcrashed : s.crashed = true → s'.crashed = true) (hcount : s.valueCount ≤ s'.valueCount)
    (hvalues : ∀ v < s.valueCount, (s'.values v).handovers = (s.values v).handovers)
    (hpending : ∀ v < s.valueCount, Pending s' v → Pending s v) : Lost s' := by
  rcases hlost with hcr | ⟨v, hv, htwice | ⟨hzero, hnot⟩⟩
  · exact Or.inl (hcrashed hcr)
  · exact Or.inr ⟨v, hv.trans_le hcount, Or.inl (by rwa [hvalues v hv])⟩
  · refine Or.inr ⟨v, hv.trans_le hcount, Or.inr ⟨by rwa [hvalues v hv], fun hp => ?_⟩⟩
    exact hnot (hpending v hv hp)

/-- What registering a module does to the slots: those of the new module have new values,
those of other modules are as they were, but for the objects that are built again. -/
structure Registers (s s' : State) (n : ℕ) (d : Dictionary ℕ) : Prop where
  crashed : s'.crashed = s.crashed
  valueCount : s.valueCount ≤ s'.valueCount
  old : ∀ v < s.valueCount, (s'.values v).handovers = (s.values v).handovers
  new : ∀ v, s.valueCount ≤ v → v < s'.valueCount →
    (s'.values v).handovers = 0 ∧ ∃ kv ∈ d, (s'.objects kv.2).cValue = some v
  awaits : (s'.modules n).Awaits ∧ (s'.modules n).properties = d
  none : (s.modules n).properties = []
  others : ∀ i, i ≠ n → ((s'.modules i).Awaits ↔ (s.modules i).Awaits) ∧
    (s'.modules i).properties = (s.modules i).properties
  placed : ∀ kv ∈ d, ∃ v, (s'.objects kv.2).cValue = some v ∧ s.valueCount ≤ v ∧
    v < s'.valueCount
  unplaced : ∀ o, (∀ kv ∈ d, kv.2 ≠ o) → (s'.objects o).cValue = (s.objects o).cValue

theorem registers_module {s : State} (h : Coherent swift s []) (interned : AtomTable)
    (children : List ℕ) :
    Registers s (s.module swift interned children) s.moduleCount
      (s.builderProperties swift children) := by
  have hb := @builds_module swift s interned children
  obtain ⟨hkeys, hmem⟩ := @builderProperties_spec swift s children
  have horder := swift.order_perm (s.builderProperties swift children)
  have hnodup : ((swift.order (s.builderProperties swift children)).map Prod.snd).Nodup :=
    (horder.map Prod.snd).nodup_iff.mpr (nodup_objects hkeys (fun kv hkv => (hmem kv hkv).2.2))
  have hin : ∀ o, o ∈ (swift.order (s.builderProperties swift children)).map Prod.snd ↔
      ∃ kv ∈ s.builderProperties swift children, kv.2 = o := by
    intro o
    simp only [List.mem_map, horder.mem_iff]
  refine ⟨hb.crashed, hb.valueCount, ?_, ?_, ?_, (h.modulesBeyond _ le_rfl).2, ?_, ?_, ?_⟩
  · intro v hv
    rw [hb.old v hv]
    rfl
  · intro v hge hlt
    obtain ⟨hdata, heq⟩ := hb.new v hge hlt
    obtain ⟨kv, hkv, hkv2⟩ := (hin _).mp hdata
    refine ⟨congrArg FunctionValue.handovers heq, kv, hkv, ?_⟩
    rw [hkv2]
    exact hb.latest hnodup v hge hlt
  · have hm := hb.modules s.moduleCount
    unfold JSModule.Awaits
    rw [hm.live, hm.loaded, hm.properties, newModule_self]
    exact ⟨⟨rfl, rfl⟩, rfl⟩
  · intro i hi
    have hm := hb.modules i
    unfold JSModule.Awaits
    rw [hm.live, hm.loaded, hm.properties, newModule_of_ne hi]
    exact ⟨Iff.rfl, rfl⟩
  · intro kv hkv
    obtain ⟨v, hv, hge, hlt, -⟩ := hb.current kv.2 ((hin _).mpr ⟨kv, hkv, rfl⟩)
    exact ⟨v, hv, hge, hlt⟩
  · intro o ho
    refine (hb.other o fun hmem => ?_).trans rfl
    obtain ⟨kv, hkv, heq⟩ := (hin o).mp hmem
    exact ho kv hkv heq

section Registers

variable {s s' : State} {n : ℕ} {d : Dictionary ℕ}

/-- A slot that has an old value was there before, and its object is not built again. -/
theorem Registers.old_slot (hr : Registers s s' n d) {i v : ℕ} {kv : List Char × ℕ}
    (hkv : kv ∈ (s'.modules i).properties) (hval : (s'.objects kv.2).cValue = some v)
    (hv : v < s.valueCount) :
    i ≠ n ∧ kv ∈ (s.modules i).properties ∧ (s.objects kv.2).cValue = some v ∧
      ∀ kv' ∈ d, kv'.2 ≠ kv.2 := by
  have hnot : ∀ kv' ∈ d, kv'.2 ≠ kv.2 := by
    intro kv' hkv' heq
    obtain ⟨w, hw, hge, -⟩ := hr.placed kv' hkv'
    rw [heq, hval, Option.some_inj] at hw
    omega
  have hi : i ≠ n := by
    intro hi
    rw [hi, hr.awaits.2] at hkv
    exact hnot kv hkv rfl
  refine ⟨hi, by rwa [(hr.others i hi).2] at hkv, ?_, hnot⟩
  rwa [hr.unplaced kv.2 hnot] at hval

theorem Registers.pending (hr : Registers s s' n d) {v : ℕ} (hv : v < s.valueCount)
    (hp : Pending s' v) : Pending s v := by
  obtain ⟨i, hi, kv, hkv, hval⟩ := hp
  obtain ⟨hne, hold, hval, -⟩ := hr.old_slot hkv hval hv
  exact ⟨i, (hr.others i hne).1.mp hi, kv, hold, hval⟩

/-- Building again what was handed over, or what was never built, keeps the books. -/
theorem Registers.balanced (hr : Registers s s' n d) (h : Coherent swift s []) (hb : Balanced s)
    (hok : ∀ kv ∈ d, ∀ v, (s.objects kv.2).cValue = some v → (s.values v).handovers = 1) :
    Balanced s' := by
  -- No object of the new module is in another one that awaits its callback.
  have hapart : ∀ i, i ≠ n → (s'.modules i).Awaits → ∀ kv ∈ (s'.modules i).properties,
      ∀ kv' ∈ d, kv'.2 ≠ kv.2 := by
    intro i hi hawaits kv hkv kv' hkv' heq
    rw [(hr.others i hi).1] at hawaits
    rw [(hr.others i hi).2] at hkv
    obtain ⟨v, hv⟩ := (h.slots i kv hkv).2.resolve_right List.not_mem_nil
    have hzero := hb.fresh i hawaits kv hkv v hv
    have hone := hok kv' hkv' v (by rwa [heq])
    omega
  refine ⟨hr.crashed.trans hb.running, ?_, ?_, ?_⟩
  · intro v hv
    by_cases hold : v < s.valueCount
    · rw [hr.old v hold]
      refine (hb.once v hold).imp id fun ⟨hzero, i, hi, kv, hkv, hval⟩ => ⟨hzero, i, ?_⟩
      have hne : i ≠ n := by
        rintro rfl
        rw [hr.none] at hkv
        exact List.not_mem_nil hkv
      rw [(hr.others i hne).1, (hr.others i hne).2]
      refine ⟨hi, kv, hkv, ?_⟩
      rw [hr.unplaced kv.2]
      · exact hval
      · intro kv' hkv' heq
        have hone := hok kv' hkv' v (by rwa [heq])
        omega
    · obtain ⟨hzero, kv, hkv, hval⟩ := hr.new v (Nat.not_lt.mp hold) hv
      refine Or.inr ⟨hzero, n, hr.awaits.1, kv, ?_, hval⟩
      rwa [hr.awaits.2]
  · intro i hi kv hkv v hval
    by_cases hold : v < s.valueCount
    · obtain ⟨hne, hkv, hval, -⟩ := hr.old_slot hkv hval hold
      rw [hr.old v hold]
      exact hb.fresh i ((hr.others i hne).1.mp hi) kv hkv v hval
    · by_cases hplaced : ∀ kv' ∈ d, kv'.2 ≠ kv.2
      · rw [hr.unplaced _ hplaced] at hval
        exact absurd (h.current _ v hval).1 hold
      · push Not at hplaced
        obtain ⟨kv', hkv', heq⟩ := hplaced
        obtain ⟨w, hw, hge, hlt⟩ := hr.placed kv' hkv'
        rw [heq, hval, Option.some_inj] at hw
        rw [hw]
        exact (hr.new w hge hlt).1
  · intro i j hi hj kv hkv kv' hkv' heq
    by_cases hin : i = n
    · by_cases hjn : j = n
      · rw [hin, hjn]
      · rw [hin, hr.awaits.2] at hkv
        exact absurd heq (hapart j hjn hj kv' hkv' kv hkv)
    · by_cases hjn : j = n
      · rw [hjn, hr.awaits.2] at hkv'
        exact absurd heq.symm (hapart i hin hi kv hkv kv' hkv')
      · rw [(hr.others i hin).1] at hi
        rw [(hr.others j hjn).1] at hj
        rw [(hr.others i hin).2] at hkv
        rw [(hr.others j hjn).2] at hkv'
        exact hb.sole i j hi hj kv hkv kv' hkv' heq

/-- Building again what was not handed over loses the value it had. -/
theorem Registers.lost (hr : Registers s s' n d) (h : Coherent swift s []) (hb : Balanced s)
    {kv : List Char × ℕ} (hkv : kv ∈ d) {v : ℕ} (hval : (s.objects kv.2).cValue = some v)
    (hnot : (s.values v).handovers ≠ 1) : Lost s' := by
  obtain ⟨hv, hdata⟩ := h.current kv.2 v hval
  have hzero := ((hb.once v hv).resolve_left hnot).1
  refine Or.inr ⟨v, hv.trans_le hr.valueCount, Or.inr ⟨(hr.old v hv).trans hzero, ?_⟩⟩
  rintro ⟨i, -, kv', hkv', hval'⟩
  obtain ⟨-, -, hval', hapart⟩ := hr.old_slot hkv' hval' hv
  exact hapart kv hkv (hdata.symm.trans (h.current kv'.2 v hval').2)

end Registers

/-! ## Registering a function -/

/-- What `function(_:argc:block:)` does with a live definition: a new object with a new
value gets a slot in the module. -/
structure Places (swift : Stdlib) (s s' : State) (i : ℕ) (name : List Char) : Prop where
  crashed : s'.crashed = s.crashed
  valueCount : s'.valueCount = s.valueCount + 1
  old : ∀ v < s.valueCount, (s'.values v).handovers = (s.values v).handovers
  new : (s'.values s.valueCount).handovers = 0
  placed : (s'.objects s.objectCount).cValue = some s.valueCount
  others : ∀ o, o ≠ s.objectCount → (s'.objects o).cValue = (s.objects o).cValue
  awaits : ∀ j, (s'.modules j).Awaits ↔ (s.modules j).Awaits
  properties : (s'.modules i).properties = swift.set (s.modules i).properties name s.objectCount
  elsewhere : ∀ j, j ≠ i → (s'.modules j).properties = (s.modules j).properties

theorem places_function {s : State} (h : Coherent swift s []) {i : ℕ}
    (hlive : (s.modules i).live = true) (interned : AtomTable) (name : List Char) (argc : ℤ)
    (block : ℕ) : Places swift s (s.function swift i interned name argc block) i name := by
  have hnew := sameBooks_newFunction h name argc block 0
  have hb := builds_buildFunction (s.newFunction name argc block 0) s.objectCount
  have hadd := builds_addExport (s.placeFunction swift i name argc block) i
    (by rw [placeFunction_self, hlive]) interned name
  have hvalues := values_addExport (s.placeFunction swift i name argc block) i interned name
  have hmodule := fun j => hadd.modules j
  refine ⟨hadd.crashed.trans hb.crashed, ?_, ?_, ?_, ?_, ?_, ?_, ?_, ?_⟩
  · exact hvalues.2.trans rfl
  · intro v hv
    refine (congrArg FunctionValue.handovers (congrFun hvalues.1 v)).trans ?_
    exact (congrArg FunctionValue.handovers (hb.old v hv)).trans (hnew.handovers v)
  · refine (congrArg FunctionValue.handovers (congrFun hvalues.1 _)).trans ?_
    exact congrArg FunctionValue.handovers
      (Function.update_self s.valueCount _ (s.newFunction name argc block 0).values)
  · refine (hadd.other _ List.not_mem_nil).trans ?_
    exact congrArg JSFunction.cValue
      (Function.update_self s.objectCount _ (s.newFunction name argc block 0).objects)
  · intro o ho
    refine (hadd.other o List.not_mem_nil).trans ((hb.other o ?_).trans (hnew.cValue o))
    exact fun hmem => ho (List.mem_singleton.mp hmem)
  · intro j
    unfold JSModule.Awaits
    unfold State.function
    rw [(hmodule j).live, (hmodule j).loaded]
    by_cases hj : j = i
    · rw [hj, placeFunction_self]
    · rw [placeFunction_of_ne hj]
  · unfold State.function
    rw [(hmodule i).properties, placeFunction_self]
  · intro j hj
    unfold State.function
    rw [(hmodule j).properties, placeFunction_of_ne hj]

section Places

variable {s s' : State} {i : ℕ} {name : List Char}

/-- A slot of the new state is that of the new object, or was there under another name. -/
theorem Places.slot (hp : Places swift s s' i name) (h : Coherent swift s []) {j : ℕ}
    {kv : List Char × ℕ} (hkv : kv ∈ (s'.modules j).properties) :
    (j = i ∧ kv.2 = s.objectCount) ∨
      (kv ∈ (s.modules j).properties ∧ (s'.objects kv.2).cValue = (s.objects kv.2).cValue ∧
        (j = i → swift.normalize kv.1 ≠ swift.normalize name)) := by
  have hold : ∀ kv ∈ (s.modules j).properties,
      (s'.objects kv.2).cValue = (s.objects kv.2).cValue :=
    fun kv hkv => hp.others kv.2 (Nat.ne_of_lt (h.slots j kv hkv).1)
  by_cases hj : j = i
  · rw [hj, hp.properties] at hkv
    rcases Stdlib.mem_set (h.keys i) hkv with ⟨hmem, hne⟩ | ⟨hnew, -⟩
    · rw [← hj] at hmem
      exact Or.inr ⟨hmem, hold kv hmem, fun _ => hne⟩
    · exact Or.inl ⟨hj, hnew⟩
  · rw [hp.elsewhere j hj] at hkv
    exact Or.inr ⟨hkv, hold kv hkv, fun heq => absurd heq hj⟩

theorem Places.pending (hp : Places swift s s' i name) (h : Coherent swift s []) {v : ℕ}
    (hv : v < s.valueCount) (hpend : Pending s' v) : Pending s v := by
  obtain ⟨j, hj, kv, hkv, hval⟩ := hpend
  rcases hp.slot h hkv with ⟨-, hnew⟩ | ⟨hold, hsame, -⟩
  · rw [hnew, hp.placed, Option.some_inj] at hval
    omega
  · exact ⟨j, (hp.awaits j).mp hj, kv, hold, hsame ▸ hval⟩

/-- A function under a new name, in a module that awaits its callback. -/
theorem Places.balanced (hp : Places swift s s' i name) (h : Coherent swift s [])
    (hb : Balanced s) (hawaits : (s.modules i).Awaits)
    (hkey : ¬ swift.HasKey (s.modules i).properties name) : Balanced s' := by
  have hset : (s'.modules i).properties = (s.modules i).properties ++ [(name, s.objectCount)] := by
    rw [hp.properties, Stdlib.set_of_new _ hkey]
  refine ⟨hp.crashed.trans hb.running, ?_, ?_, ?_⟩
  · intro v hv
    by_cases hnew : v = s.valueCount
    · rw [hnew]
      refine Or.inr ⟨hp.new, i, (hp.awaits i).mpr hawaits, (name, s.objectCount), ?_, hp.placed⟩
      rw [hset]
      exact List.mem_append_right _ (List.mem_singleton.mpr rfl)
    · have hold : v < s.valueCount := by
        have := hp.valueCount
        omega
      rw [hp.old v hold]
      refine (hb.once v hold).imp id fun ⟨hzero, j, hj, kv, hkv, hval⟩ => ?_
      refine ⟨hzero, j, (hp.awaits j).mpr hj, kv, ?_, ?_⟩
      · by_cases hji : j = i
        · rw [hji] at hkv ⊢
          rw [hset]
          exact List.mem_append_left _ hkv
        · rwa [hp.elsewhere j hji]
      · rwa [hp.others kv.2 (Nat.ne_of_lt (h.slots j kv hkv).1)]
  · intro j hj kv hkv v hval
    rcases hp.slot h hkv with ⟨-, hnew⟩ | ⟨hold, hsame, -⟩
    · rw [hnew, hp.placed, Option.some_inj] at hval
      rw [← hval]
      exact hp.new
    · rw [hsame] at hval
      rw [hp.old v (h.current _ v hval).1]
      exact hb.fresh j ((hp.awaits j).mp hj) kv hold v hval
  · intro j j' hj hj' kv hkv kv' hkv' heq
    rcases hp.slot h hkv with ⟨hji, hnew⟩ | ⟨hold, -⟩
    · rcases hp.slot h hkv' with ⟨hji', -⟩ | ⟨hold', -⟩
      · rw [hji, hji']
      · exact absurd (heq.symm.trans hnew) (Nat.ne_of_lt (h.slots j' kv' hold').1)
    · rcases hp.slot h hkv' with ⟨-, hnew'⟩ | ⟨hold', -⟩
      · exact absurd (heq.trans hnew') (Nat.ne_of_lt (h.slots j kv hold).1)
      · exact hb.sole j j' ((hp.awaits j).mp hj) ((hp.awaits j').mp hj') kv hold kv' hold' heq

/-- After `load()` nobody hands over the new value. -/
theorem Places.lost_of_loaded (hp : Places swift s s' i name) (h : Coherent swift s [])
    (hnot : ¬ (s.modules i).Awaits) : Lost s' := by
  refine Or.inr ⟨s.valueCount, hp.valueCount.ge.trans' (Nat.lt_succ_self _),
    Or.inr ⟨hp.new, ?_⟩⟩
  rintro ⟨j, hj, kv, hkv, hval⟩
  rcases hp.slot h hkv with ⟨hji, -⟩ | ⟨hold, hsame, -⟩
  · exact hnot ((hp.awaits i).mp (hji ▸ hj))
  · rw [hsame] at hval
    exact absurd (h.current _ _ hval).1 (Nat.lt_irrefl _)

/-- A name that is used again takes the slot of a value that was not handed over. -/
theorem Places.lost_of_present (hp : Places swift s s' i name) (h : Coherent swift s [])
    (hb : Balanced s) (hawaits : (s.modules i).Awaits)
    (hkey : swift.HasKey (s.modules i).properties name) : Lost s' := by
  obtain ⟨kv, hkv, hname⟩ := hkey
  obtain ⟨v, hval⟩ := (h.slots i kv hkv).2.resolve_right List.not_mem_nil
  obtain ⟨hv, hdata⟩ := h.current kv.2 v hval
  refine Or.inr ⟨v, ?_, Or.inr ⟨?_, ?_⟩⟩
  · rw [hp.valueCount]
    exact Nat.lt_succ_of_lt hv
  · rw [hp.old v hv]
    exact hb.fresh i hawaits kv hkv v hval
  · rintro ⟨j, hj, kv', hkv', hval'⟩
    rcases hp.slot h hkv' with ⟨-, hnew⟩ | ⟨hold, hsame, hne⟩
    · rw [hnew, hp.placed, Option.some_inj] at hval'
      omega
    · rw [hsame] at hval'
      have heq : kv.2 = kv'.2 := hdata.symm.trans (h.current _ v hval').2
      -- The two slots of one object are one slot.
      have hij : i = j := hb.sole i j hawaits ((hp.awaits j).mp hj) kv hkv kv' hold heq
      rw [← hij] at hold
      have hkeys := (h.named i kv' hold).trans
        ((congrArg (fun o => swift.normalize (s.objects o).name) heq.symm).trans
          (h.named i kv hkv).symm)
      exact hne hij.symm (hkeys.trans hname)

end Places

/-! ## Loading a module -/

/-- What `load()` leaves if all of its exports have variables. -/
theorem handovers_load {s : State} {i : ℕ} {interned : AtomTable}
    (hset : ∀ kv ∈ (s.modules i).properties,
      settable interned (s.modules i).export_entries kv.1 = true) (v : ℕ) :
    ((s.load swift i interned).values v).handovers = (s.values v).handovers +
      (s.modules i).properties.countP (fun kv => (s.objects kv.2).cValue = some v) := by
  have horder := swift.order_perm (s.modules i).properties
  obtain ⟨b, n, hvalue, -, -, hcount⟩ := (@loads_load swift s i interned).values v
  rw [hvalue]
  refine (hcount (List.all_eq_true.mpr fun kv hkv => hset kv (horder.mem_iff.mp hkv))).trans ?_
  rw [horder.countP_eq]

theorem awaits_load (s : State) (i : ℕ) (interned : AtomTable) (j : ℕ) :
    ((s.load swift i interned).modules j).Awaits ↔ j ≠ i ∧ (s.modules j).Awaits := by
  have hl := @loads_load swift s i interned
  unfold JSModule.Awaits
  by_cases hj : j = i
  · obtain ⟨e, he⟩ := hl.loaded
    rw [hj, he]
    simp
  · rw [hl.other j hj]
    simp [hj]

theorem properties_load (s : State) (i : ℕ) (interned : AtomTable) (j : ℕ) :
    ((s.load swift i interned).modules j).properties = (s.modules j).properties := by
  have hl := @loads_load swift s i interned
  by_cases hj : j = i
  · obtain ⟨e, he⟩ := hl.loaded
    rw [hj, he]
  · rw [hl.other j hj]

theorem crashed_load (s : State) (i : ℕ) (interned : AtomTable) :
    (s.load swift i interned).crashed = true ↔ s.crashed = true ∨
      ∃ kv ∈ (s.modules i).properties,
        settable interned (s.modules i).export_entries kv.1 = false := by
  rw [(@loads_load swift s i interned).crashed, Bool.or_eq_true, List.any_eq_true]
  simp only [(swift.order_perm _).mem_iff, Bool.not_eq_true']

theorem pending_load {s : State} {i : ℕ} {interned : AtomTable} {v : ℕ}
    (hp : Pending (s.load swift i interned) v) : Pending s v := by
  obtain ⟨j, hj, kv, hkv, hval⟩ := hp
  rw [(@loads_load swift s i interned).objects] at hval
  rw [properties_load] at hkv
  exact ⟨j, ((awaits_load s i interned j).mp hj).2, kv, hkv, hval⟩

/-- A module whose callback runs counts every one of its values once. -/
theorem countP_slots {s : State} (h : Coherent swift s []) {i v : ℕ} {kv : List Char × ℕ}
    (hkv : kv ∈ (s.modules i).properties) (hval : (s.objects kv.2).cValue = some v) :
    (s.modules i).properties.countP (fun kv => (s.objects kv.2).cValue = some v) = 1 := by
  have hnodup := nodup_objects (h.keys i) (h.named i)
  -- The slots with this value are the slots of its object.
  have hslot : ∀ kv' ∈ (s.modules i).properties,
      decide ((s.objects kv'.2).cValue = some v) = true ↔ (kv'.2 == kv.2) = true := by
    intro kv' _
    rw [decide_eq_true_iff, beq_iff_eq]
    constructor
    · intro hval'
      exact (h.current _ v hval').2.symm.trans (h.current _ v hval).2
    · intro heq
      rw [heq, hval]
  rw [List.countP_congr hslot]
  have hcount : (s.modules i).properties.countP (fun kv' => kv'.2 == kv.2)
      = ((s.modules i).properties.map Prod.snd).count kv.2 := by
    rw [List.count, List.countP_map]
    rfl
  rw [hcount]
  exact List.count_eq_one_of_mem hnodup (List.mem_map.mpr ⟨kv, hkv, rfl⟩)

theorem countP_no_slots {s : State} {i v : ℕ}
    (hnone : ∀ kv ∈ (s.modules i).properties, (s.objects kv.2).cValue ≠ some v) :
    (s.modules i).properties.countP (fun kv => (s.objects kv.2).cValue = some v) = 0 := by
  rw [List.countP_eq_zero]
  intro kv hkv
  rw [decide_eq_true_iff]
  exact hnone kv hkv

/-- `load()` hands over what was pending in its module. -/
theorem balanced_load {s : State} (h : Coherent swift s []) (hb : Balanced s) {i : ℕ}
    (hawaits : (s.modules i).Awaits) {interned : AtomTable}
    (hset : ∀ kv ∈ (s.modules i).properties,
      settable interned (s.modules i).export_entries kv.1 = true) :
    Balanced (s.load swift i interned) := by
  have hl := @loads_load swift s i interned
  -- A value of another module that awaits its callback is not in this one.
  have hapart : ∀ j, j ≠ i → (s.modules j).Awaits → ∀ kv ∈ (s.modules j).properties,
      ∀ v, (s.objects kv.2).cValue = some v →
      ∀ kv' ∈ (s.modules i).properties, (s.objects kv'.2).cValue ≠ some v := by
    intro j hji hj kv hkv v hval kv' hkv' hval'
    have heq : kv.2 = kv'.2 := (h.current _ v hval).2.symm.trans (h.current _ v hval').2
    exact hji (hb.sole j i hj hawaits kv hkv kv' hkv' heq)
  refine ⟨?_, ?_, ?_, ?_⟩
  · rw [Bool.eq_false_iff, Ne, crashed_load, hb.running]
    rintro (hcr | ⟨kv, hkv, hnot⟩)
    · exact absurd hcr (by simp)
    · rw [hset kv hkv] at hnot
      exact absurd hnot (by simp)
  · intro v hv
    rw [hl.valueCount] at hv
    rw [handovers_load hset]
    rcases hb.once v hv with hone | ⟨hzero, j, hj, kv, hkv, hval⟩
    · left
      rw [countP_no_slots, hone]
      intro kv hkv hval
      have := hb.fresh i hawaits kv hkv v hval
      omega
    · by_cases hji : j = i
      · left
        rw [hji] at hkv
        rw [countP_slots h hkv hval, hzero]
      · right
        rw [countP_no_slots (hapart j hji hj kv hkv v hval), hzero]
        refine ⟨rfl, j, (awaits_load s i interned j).mpr ⟨hji, hj⟩, kv, ?_, ?_⟩
        · rwa [properties_load]
        · rwa [hl.objects]
  · intro j hj kv hkv v hval
    rw [awaits_load] at hj
    rw [properties_load] at hkv
    rw [hl.objects] at hval
    rw [handovers_load hset, countP_no_slots (hapart j hj.1 hj.2 kv hkv v hval)]
    exact hb.fresh j hj.2 kv hkv v hval
  · intro j j' hj hj' kv hkv kv' hkv' heq
    rw [awaits_load] at hj hj'
    rw [properties_load] at hkv hkv'
    exact hb.sole j j' hj.2 hj'.2 kv hkv kv' hkv' heq

/-- What is lost stays lost when a module is loaded. -/
theorem lost_load {s : State} (hlost : Lost s) {i : ℕ} (hawaits : (s.modules i).Awaits)
    (interned : AtomTable) : Lost (s.load swift i interned) := by
  have hl := @loads_load swift s i interned
  by_cases hset : ∀ kv ∈ (s.modules i).properties,
      settable interned (s.modules i).export_entries kv.1 = true
  · rcases hlost with hcr | ⟨v, hv, htwice | ⟨hzero, hnot⟩⟩
    · exact Or.inl ((crashed_load s i interned).mpr (Or.inl hcr))
    · refine Or.inr ⟨v, hv.trans_eq hl.valueCount.symm, Or.inl ?_⟩
      rw [handovers_load hset]
      omega
    · refine Or.inr ⟨v, hv.trans_eq hl.valueCount.symm, Or.inr ⟨?_, ?_⟩⟩
      · rw [handovers_load hset, hzero, countP_no_slots]
        intro kv hkv hval
        exact hnot ⟨i, hawaits, kv, hkv, hval⟩
      · exact fun hp => hnot (pending_load hp)
  · push Not at hset
    obtain ⟨kv, hkv, hne⟩ := hset
    exact Or.inl ((crashed_load s i interned).mpr (Or.inr ⟨kv, hkv, Bool.eq_false_iff.mpr hne⟩))

/-! ## Freeing modules -/

theorem awaits_js_free_modules (s : State) (keep : JSModule → Bool) (i : ℕ) :
    ((s.js_free_modules keep).modules i).Awaits ↔
      (s.modules i).Awaits ∧ keep (s.modules i) = true := by
  unfold JSModule.Awaits State.js_free_modules
  simp only [Bool.and_eq_true]
  tauto

theorem pending_js_free_modules {s : State} {keep : JSModule → Bool} {v : ℕ}
    (hp : Pending (s.js_free_modules keep) v) : Pending s v := by
  obtain ⟨i, hi, kv, hkv, hval⟩ := hp
  exact ⟨i, ((awaits_js_free_modules s keep i).mp hi).1, kv, hkv, hval⟩

theorem lost_js_free_modules {s : State} (hlost : Lost s) (keep : JSModule → Bool) :
    Lost (s.js_free_modules keep) :=
  lost_of_lost hlost (fun h => h) le_rfl (fun _ _ => rfl) (fun _ _ => pending_js_free_modules)

theorem balanced_js_free_modules {s : State} (hb : Balanced s) {keep : JSModule → Bool}
    (hnone : FreesNonePending s keep) : Balanced (s.js_free_modules keep) := by
  refine ⟨hb.running, ?_, ?_, ?_⟩
  · intro v hv
    refine (hb.once v hv).imp id fun ⟨hzero, i, hi, kv, hkv, hval⟩ => ⟨hzero, i, ?_, kv, hkv, hval⟩
    refine (awaits_js_free_modules s keep i).mpr ⟨hi, ?_⟩
    by_contra hkeep
    rw [hnone i hi (Bool.eq_false_iff.mpr hkeep)] at hkv
    exact List.not_mem_nil hkv
  · intro i hi kv hkv v hval
    exact hb.fresh i ((awaits_js_free_modules s keep i).mp hi).1 kv hkv v hval
  · intro i j hi hj kv hkv kv' hkv' heq
    exact hb.sole i j ((awaits_js_free_modules s keep i).mp hi).1
      ((awaits_js_free_modules s keep j).mp hj).1 kv hkv kv' hkv' heq

/-- A module that is freed before its callback has run loses the values of its slots. -/
theorem lost_of_freed {s : State} (h : Coherent swift s []) (hb : Balanced s)
    {keep : JSModule → Bool} (hsome : ¬ FreesNonePending s keep) :
    Lost (s.js_free_modules keep) := by
  unfold FreesNonePending at hsome
  push Not at hsome
  obtain ⟨i, hi, hkeep, hprops⟩ := hsome
  obtain ⟨kv, hkv⟩ := List.exists_mem_of_ne_nil _ hprops
  obtain ⟨v, hval⟩ := (h.slots i kv hkv).2.resolve_right List.not_mem_nil
  obtain ⟨hv, hdata⟩ := h.current kv.2 v hval
  refine Or.inr ⟨v, hv, Or.inr ⟨hb.fresh i hi kv hkv v hval, ?_⟩⟩
  rintro ⟨j, hj, kv', hkv', hval'⟩
  rw [awaits_js_free_modules] at hj
  have heq : kv.2 = kv'.2 := hdata.symm.trans (h.current _ v hval').2
  rw [← hb.sole i j hi hj.1 kv hkv kv' hkv' heq, hkeep] at hj
  exact absurd hj.2 (by simp)

/-! ## Steps and runs -/

/-- The books a step leaves as they are. -/
theorem sameBooks_step {s : State} (h : Coherent swift s []) {a : Step}
    (hquiet : ∀ interned children reuses, a ≠ .module interned children reuses)
    (hfunction : ∀ i interned name argc block, a = .function i interned name argc block →
      ¬ (i < s.moduleCount ∧ (s.modules i).held = true))
    (hevaluate : ∀ i interned, a = .evaluate i interned →
      ¬ ((s.modules i).Awaits ∧ (s.modules i).func_created = true))
    (hfree : a ≠ .freeNotResolved ∧ a ≠ .freeNotEvaluated) :
    SameBooks s (step swift s a) := by
  cases a with
  | newFunction name argc block => exact sameBooks_newFunction h name argc block 1
  | retain o =>
    rw [step]
    split_ifs
    · exact sameBooks_setObject s o rfl
    · exact .refl s
  | release o =>
    rw [step]
    exact sameBooks_setObject s o rfl
  | module interned children reuses => exact absurd rfl (hquiet interned children reuses)
  | retainModule i =>
    rw [step]
    split_ifs
    · exact sameBooks_setModule s i Iff.rfl rfl
    · exact .refl s
  | releaseModule i =>
    rw [step]
    exact sameBooks_setModule s i Iff.rfl rfl
  | function i interned name argc block =>
    rw [step, if_neg (hfunction i interned name argc block rfl)]
    exact .refl s
  | resolve i =>
    rw [step]
    split_ifs
    · exact sameBooks_setModule s i Iff.rfl rfl
    · exact .refl s
  | instantiate i =>
    rw [step]
    split_ifs
    · exact sameBooks_setModule s i Iff.rfl rfl
    · exact .refl s
  | evaluate i interned =>
    rw [step, if_neg]
    · exact .refl s
    · intro hif
      refine hevaluate i interned rfl ?_
      simp only [Bool.and_eq_true, Bool.not_eq_true'] at hif
      exact ⟨⟨hif.1.1, hif.2⟩, hif.1.2⟩
  | freeNotResolved => exact absurd rfl hfree.1
  | freeNotEvaluated => exact absurd rfl hfree.2

theorem step_evaluate {s : State} {i : ℕ} (hawaits : (s.modules i).Awaits)
    (hcreated : (s.modules i).func_created = true) (interned : AtomTable) :
    step swift s (.evaluate i interned) = s.load swift i interned := by
  rw [step, if_pos]
  rw [hawaits.1, hawaits.2, hcreated]
  rfl

/-- Registering a function with a definition that has been freed crashes. -/
theorem lost_function_of_freed {s : State} {i : ℕ} (hdead : (s.modules i).live ≠ true)
    (interned : AtomTable) (name : List Char) (argc : ℤ) (block : ℕ) :
    Lost (s.function swift i interned name argc block) := by
  left
  unfold State.function State.addExport
  rw [if_neg (by rwa [placeFunction_self])]

/-- **No step** makes good what is lost. -/
theorem lost_step (s : State) (a : Step) (h : Coherent swift s []) (hlost : Lost s) :
    Lost (step swift s a) := by
  cases a with
  | module interned children reuses =>
    have hsame := sameBooks_unregister s reuses
    have hr := registers_module (coherent_unregister h reuses) interned children
    exact lost_of_lost (hsame.lost.mpr hlost) (fun hcr => hr.crashed.trans hcr) hr.valueCount hr.old
      (fun v hv => hr.pending hv)
  | function i interned name argc block =>
    by_cases hif : i < s.moduleCount ∧ (s.modules i).held = true
    · rw [step, if_pos hif]
      by_cases hlive : (s.modules i).live = true
      · have hp := places_function h hlive interned name argc block
        exact lost_of_lost hlost (fun hcr => hp.crashed.trans hcr)
          (hp.valueCount.ge.trans' (Nat.le_succ _)) hp.old (fun v hv => hp.pending h hv)
      · exact lost_function_of_freed hlive interned name argc block
    · rw [step, if_neg hif]
      exact hlost
  | evaluate i interned =>
    by_cases hif : (s.modules i).Awaits ∧ (s.modules i).func_created = true
    · rw [step_evaluate hif.1 hif.2]
      exact lost_load hlost hif.1 interned
    · refine (sameBooks_step h (by simp) (by simp) ?_ (by simp)).lost.mpr hlost
      rintro j interned' heq
      injection heq with hi _
      rwa [← hi]
  | freeNotResolved => exact lost_js_free_modules hlost _
  | freeNotEvaluated => exact lost_js_free_modules hlost _
  | _ => exact (sameBooks_step h (by simp) (by simp) (by simp) (by simp)).lost.mpr hlost

/-- **A step** that meets its condition keeps the books in order. -/
theorem balanced_step (s : State) (a : Step) (h : Coherent swift s []) (hb : Balanced s)
    (hok : HandsOverOnce swift s a) : Balanced (step swift s a) := by
  cases a with
  | module interned children reuses =>
    have hsame := sameBooks_unregister s reuses
    have hwf := coherent_unregister h reuses
    apply (registers_module hwf interned children).balanced hwf (hsame.balanced hb)
    rw [builderProperties_unregister]
    intro kv hkv v hval
    rw [hsame.handovers]
    exact hok kv hkv v (by rwa [← hsame.cValue])
  | function i interned name argc block =>
    by_cases hif : i < s.moduleCount ∧ (s.modules i).held = true
    · obtain ⟨hawaits, hkey⟩ := hok hif.1 hif.2
      rw [step, if_pos hif]
      exact (places_function h hawaits.1 interned name argc block).balanced h hb hawaits hkey
    · rw [step, if_neg hif]
      exact hb
  | evaluate i interned =>
    by_cases hif : (s.modules i).Awaits ∧ (s.modules i).func_created = true
    · rw [step_evaluate hif.1 hif.2]
      exact balanced_load h hb hif.1 (hok hif.1 hif.2)
    · refine (sameBooks_step h (by simp) (by simp) ?_ (by simp)).balanced hb
      rintro j interned' heq
      injection heq with hi _
      rwa [← hi]
  | freeNotResolved => exact balanced_js_free_modules hb hok
  | freeNotEvaluated => exact balanced_js_free_modules hb hok
  | _ => exact (sameBooks_step h (by simp) (by simp) (by simp) (by simp)).balanced hb

/-- **Any other step** loses a reference. -/
theorem lost_of_not_handsOverOnce (s : State) (a : Step) (h : Coherent swift s [])
    (hb : Balanced s) (hnot : ¬ HandsOverOnce swift s a) : Lost (step swift s a) := by
  cases a with
  | module interned children reuses =>
    have hsame := sameBooks_unregister s reuses
    have hwf := coherent_unregister h reuses
    unfold HandsOverOnce at hnot
    push Not at hnot
    obtain ⟨kv, hkv, v, hval, hne⟩ := hnot
    rw [← builderProperties_unregister s reuses] at hkv
    apply (registers_module hwf interned children).lost hwf (hsame.balanced hb) hkv
    · rw [hsame.cValue]
      exact hval
    · rwa [hsame.handovers]
  | function i interned name argc block =>
    unfold HandsOverOnce at hnot
    push Not at hnot
    obtain ⟨hi, hheld, hbad⟩ := hnot
    rw [step, if_pos ⟨hi, hheld⟩]
    by_cases hlive : (s.modules i).live = true
    · have hp := places_function h hlive interned name argc block
      by_cases hawaits : (s.modules i).Awaits
      · exact hp.lost_of_present h hb hawaits (hbad hawaits)
      · exact hp.lost_of_loaded h hawaits
    · exact lost_function_of_freed hlive interned name argc block
  | evaluate i interned =>
    unfold HandsOverOnce at hnot
    push Not at hnot
    obtain ⟨hawaits, hcreated, kv, hkv, hset⟩ := hnot
    rw [step_evaluate hawaits hcreated]
    exact Or.inl ((crashed_load s i interned).mpr (Or.inr ⟨kv, hkv, Bool.eq_false_iff.mpr hset⟩))
  | freeNotResolved => exact lost_of_freed h hb hnot
  | freeNotEvaluated => exact lost_of_freed h hb hnot
  | _ => exact absurd trivial hnot

theorem Balanced.not_lost {s : State} (hb : Balanced s) : ¬ Lost s := by
  rintro (hcr | ⟨v, hv, htwice | ⟨hzero, hnot⟩⟩)
  · rw [hb.running] at hcr
    exact absurd hcr (by simp)
  · rcases hb.once v hv with hone | ⟨hnone, -⟩ <;> omega
  · rcases hb.once v hv with hone | ⟨-, hp⟩
    · omega
    · exact hnot hp

/-- Once the context is freed nothing is pending. -/
theorem consumed_freeContext (s : State) :
    Consumed s.freeContext ↔ ¬ Lost (s.js_free_modules (fun _ => false)) := by
  have hnone : ∀ v, ¬ Pending (s.js_free_modules (fun _ => false)) v := by
    rintro v ⟨i, hi, -⟩
    exact absurd ((awaits_js_free_modules s _ i).mp hi).2 (by simp)
  unfold Lost
  simp only [hnone, not_false_eq_true, and_true]
  rw [not_or, Bool.not_eq_true]
  refine and_congr Iff.rfl ⟨fun h => ?_, fun h v hv => ?_⟩
  · rintro ⟨v, hv, hbad⟩
    have := h v hv
    change (s.values v).handovers = 1 at this
    change 2 ≤ (s.values v).handovers ∨ (s.values v).handovers = 0 at hbad
    omega
  · by_contra hne
    refine h ⟨v, hv, ?_⟩
    change (s.values v).handovers ≠ 1 at hne
    change 2 ≤ (s.values v).handovers ∨ (s.values v).handovers = 0
    omega

/-- **Every creation reference** is consumed exactly once, after any run and with the
context freed, exactly if every step of the run meets its condition and no module that
has properties is left whose callback did not run. -/
theorem consumed_once_iff (steps : List Step) :
    Consumed (Run.exec (step swift) State.empty steps).freeContext ↔
      Run.Meets (step swift) (HandsOverOnce swift) State.empty steps ∧
        FreesNonePending (Run.exec (step swift) State.empty steps) (fun _ => false) := by
  have hempty : Balanced State.empty := by
    refine ⟨rfl, fun v hv => absurd hv (Nat.not_lt_zero v), ?_, ?_⟩
    · intro i _ kv hkv
      exact absurd hkv List.not_mem_nil
    · intro i j _ _ kv hkv
      exact absurd hkv List.not_mem_nil
  obtain ⟨hmeets, hend⟩ := Run.not_lost_iff_meets coherent_step lost_step balanced_step
    lost_of_not_handsOverOnce (fun s hb => hb.not_lost) (@coherent_empty swift) hempty steps
  have hwf := Run.exec_invariant coherent_step (@coherent_empty swift) steps
  rw [consumed_freeContext]
  constructor
  · intro hnot
    have hall := hmeets.mp (fun hlost => hnot (lost_js_free_modules hlost _))
    refine ⟨hall, ?_⟩
    by_contra hsome
    exact hnot (lost_of_freed hwf (hend hall) hsome)
  · rintro ⟨hall, hnone⟩
    exact (balanced_js_free_modules (hend hall) hnone).not_lost

/-- The module of two functions is never imported, and one of them is also in a second
module, which is. -/
def sharedAndForgotten : List Step :=
  [.newFunction ['f'] 0 7, .newFunction ['g'] 0 8, .module [] [0, 1] none, .module [] [0] none,
    .resolve 1, .instantiate 1, .evaluate 1 []]

/-- Two of the three values that are built are then leaked. -/
theorem leaked_without_import :
    ¬ Consumed (Run.exec (step inOrder) State.empty sharedAndForgotten).freeContext := by
  intro h
  have hleak := h.2 0 (by decide +kernel)
  exact absurd hleak (by decide +kernel)

end QuickJSSwift.Session
