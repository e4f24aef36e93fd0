/-
The registry of Swift modules: `JSContext.modules` (`JSContext.swift`) against the
engine's list of loaded modules.

`module(_:_:)` creates a native module and files its `JSModule` under the pointer the
engine returned. Swift only ever adds to that dictionary. The engine also frees: a module
eval that fails while it is linked or evaluated ends in `js_free_modules`, and that frees
every definition that has not been evaluated yet, the registered ones among them.

`InStep` is what the two stores owe each other. `registry_in_step_iff` says for which
runs of registrations and module evals it holds in every state.
-/
import QuickJSSwift.ModuleEval
import QuickJSSwift.Global
import QuickJSSwift.Lib.Run
import Mathlib.Algebra.Order.BigOperators.Group.List

set_option autoImplicit false

namespace QuickJSSwift.Registry

open Utf Text ModuleDef ModuleEval Evolution

/-! ## The context -/

/-- A registered `JSModule`: its name and the names its `init` exported. -/
structure JSModule where
  name : List Char
  exported : List (List UInt16)

/-- A `JSContext` with the engine's context: `modules` is the dictionary, and `crashed`
says that a call did not return. -/
structure JSContext where
  loaded_modules : List JSModuleDef
  modules : List (ℕ × JSModule)
  interned : AtomTable
  crashed : Bool

/-- The file name of every eval. -/
def swiftFilename : List Char := ['<', 'S', 'w', 'i', 'f', 't', '>']

/-- `JSModule.init`: an export for each property. -/
def JSModule.init (host : Host) (cModule : ℕ) (name : List Char) (properties : List (List Char)) :
    ModuleEval.Engine JSModule := do
  (properties.map utf8).forM (addModuleExport host cModule)
  let m ← deref cModule
  pure ⟨name, names m.export_entries⟩

/-- The engine's part of `JSContext.module(_:_:)`. -/
def createModule (host : Host) (name : List Char) (properties : List (List Char)) :
    ModuleEval.Engine (ℕ × JSModule) := do
  let cModule ← JS_NewCModule host (utf8 name) .JS_ModuleInit
  let jsModule ← JSModule.init host cModule name properties
  pure (cModule, jsModule)

/-- `JSRuntime.contextBuilder`: `std`, and `os`, which is made with `std`'s exports too. -/
def contextBuilder (host : Host) (std : Library) : ModuleEval.Engine PUnit := do
  let _ ← js_init_module host (utf8 ['s', 't', 'd']) std
  let _ ← js_init_module host (utf8 ['o', 's']) std

/-- `JSRuntime.createContext`. -/
def createContext (host : Host) (std : Library) : JSContext :=
  ⟨final (contextBuilder host std) [], [], host.interned, false⟩

/-- `self.modules[cModule] = module`. -/
def setModule (modules : List (ℕ × JSModule)) (cModule : ℕ) (jsModule : JSModule) :
    List (ℕ × JSModule) :=
  modules.filter (fun kv => kv.1 ≠ cModule) ++ [(cModule, jsModule)]

/-- The lookup of `loadModule`, which the init callback makes with the engine's pointer. -/
def loadModule (modules : List (ℕ × JSModule)) (cModule : ℕ) : Option JSModule :=
  (modules.find? (fun kv => kv.1 = cModule)).map Prod.snd

/-- What is done with a context: a registration, with the names of the module's
properties, or an eval of a module. A source that does not parse is `none`. -/
inductive Step
  | module (host : Host) (name : List Char) (properties : List (List Char))
  | eval (host : Host) (source : Option Script)

/-- What surrounds the engine during the step. -/
def Step.host : Step → Host
  | .module host _ _ => host
  | .eval host _ => host

/-- The context after a computation of the engine; a normal end may add to `modules`. -/
def JSContext.after {α : Type} (s : JSContext) (host : Host) (modules : α → List (ℕ × JSModule)) :
    EStateM.Result Failure (List JSModuleDef) α → JSContext
  | .ok a mods => ⟨mods, modules a, host.interned, s.crashed⟩
  | .error .exception mods => ⟨mods, s.modules, host.interned, s.crashed⟩
  | .error .crash mods => ⟨mods, s.modules, host.interned, true⟩

/-- One step. -/
def step (s : JSContext) : Step → JSContext
  | .module host name properties =>
    s.after host (fun kv => setModule s.modules kv.1 kv.2)
      (createModule host name properties s.loaded_modules)
  | .eval host source =>
    s.after host (fun _ => s.modules) (JS_Eval host source (utf8 swiftFilename) s.loaded_modules)

/-! ## What the two stores owe each other -/

/-- One registration: the pointer is that of a live definition with the name and exports
it was registered with and Swift's init callback; an import of the name from a module
eval resolves to it, and each of its exports is found in it. -/
structure Registered (interned : AtomTable) (mods : List JSModuleDef) (p : ℕ) (m : JSModule) :
    Prop where
  live : ∃ d ∈ mods, d.ptr = p ∧ d.module_name = utf16 m.name ∧
    d.init_func = some .JS_ModuleInit ∧ shape d.export_entries = m.exported.map (·, none)
  imported : ∀ (resolve : ℕ → ModuleEval.Engine PUnit) (host : Host), host.interned = interned →
    js_host_resolve_imported_module_atom resolve host (utf16 swiftFilename) (utf16 m.name) mods
      = .ok p mods
  found : ∀ u ∈ m.exported, ∀ stack, ∃ me, me.export_name = u ∧
    js_resolve_export mods (stack + 1) p u = .found p me

/-- The registry and the engine's list are in step. -/
structure InStep (s : JSContext) : Prop where
  running : s.crashed = false
  registered : ∀ kv ∈ s.modules, Registered s.interned s.loaded_modules kv.1 kv.2
  callback : ∀ kv ∈ s.modules, loadModule s.modules kv.1 = some kv.2

/-- The atom that `js_host_resolve_imported_module_atom` looks for. -/
def specifierAtom (interned : AtomTable) (base_module_name module_name1 : List UInt16) : JSAtom :=
  match JS_AtomToCString base_module_name, JS_AtomToCString module_name1 with
  | some base_cname, some cname =>
    JS_NewAtom interned (js_default_module_normalize_name (cString base_cname) (cString cname))
  | _, _ => none

/-- Asking for the name in an import asks the engine for the name: it is not a path that
is normalised, and its bytes are not taken for another atom. -/
def Importable (interned : AtomTable) (name : List Char) : Prop :=
  specifierAtom interned (utf16 swiftFilename) (utf16 name) = some (utf16 name)

/-- The list on which an eval calls `js_free_modules`, if it does. -/
def freeModulesOn (host : Host) (source : Option Script) (mods : List JSModuleDef) :
    Option (List JSModuleDef) :=
  match compileModule (js_resolve_module host host.stack) host source (utf8 swiftFilename) mods with
  | .error _ _ => none
  | .ok m mods =>
    match runModule host m mods with
    | .error .exception mods => some mods
    | _ => none

/-- When a step keeps the two stores in step. The registered names must stay importable.
A new name must be its own atom, importable, and not the name of a loaded module. An eval
must not crash, and if it fails once its imports are resolved, every registered module
must have been evaluated by then. -/
def StepOk (s : JSContext) (a : Step) : Prop :=
  (∀ kv ∈ s.modules, Importable a.host.interned kv.2.name) ∧
    match a with
    | .module host name _ => ∀ atom, JS_NewAtom host.interned (utf8 name) = some atom →
      atom = utf16 name ∧ Importable host.interned name ∧
        js_find_loaded_module s.loaded_modules atom = none
    | .eval host source =>
      (∀ mods, JS_Eval host source (utf8 swiftFilename) s.loaded_modules ≠ .error .crash mods) ∧
        ∀ mods, freeModulesOn host source s.loaded_modules = some mods →
          ∀ d ∈ mods, (∃ kv ∈ s.modules, kv.1 = d.ptr) → d.evaluated = true

/-! ## Names that can be imported -/

/-- An ASCII name comes back from its atom. -/
theorem JS_AtomToCString_ascii {name : List Char} (h : ∀ c ∈ name, c.toNat < 0x80) :
    JS_AtomToCString (utf16 name) = some (utf8 name) := by
  have hbyte : ∀ b ∈ utf8 name, b < 0x80 := by
    intro b hb
    rw [utf8_of_ascii h] at hb
    obtain ⟨c, hc, rfl⟩ := List.mem_map.mp hb
    rw [UInt8.lt_iff_toNat_lt, UInt8.toNat_ofNat']
    have := h c hc
    have h80 : (0x80 : UInt8).toNat = 0x80 := rfl
    omega
  have hnarrow : (utf16 name).all (· < 0x100) = true := by
    rw [utf16_of_ascii h, List.all_map, List.all_eq_true]
    intro b hb
    have := b.toNat_lt
    simp only [Function.comp_apply, decide_eq_true_eq]
    rw [UInt16.lt_iff_toNat_lt, UInt8.toNat_toUInt16]
    exact this
  have hback : (utf16 name).map UInt16.toUInt8 = utf8 name := by
    rw [utf16_of_ascii h, List.map_map]
    exact (List.map_congr_left (fun b _ => UInt8.toUInt8_toUInt16 b)).trans (List.map_id _)
  unfold JS_AtomToCString
  rw [if_pos hnarrow, hback, JS_ToCString]
  have hcount : (utf8 name).countP (0x80 ≤ ·) = 0 := by
    rw [List.countP_eq_zero]
    intro b hb
    simpa using hbyte b hb
  rw [hcount]
  rfl

/-- A plain name that does not start with a dot can always be imported. -/
theorem importable_of_plain {name : List Char} (h : Global.PlainName name)
    (hdot : name.head? ≠ some '.') (interned : AtomTable) : Importable interned name := by
  have hcut : cString (utf8 name) = utf8 name := by
    rw [cString, takeWhile_utf8, (takeWhile_ne_nul_eq_self name).mpr h.no_nul]
  have hhead : (utf8 name).head? ≠ some dot := by
    rw [utf8_of_ascii h.ascii, List.head?_map]
    cases hname : name with
    | nil => simp
    | cons c t =>
      rw [hname] at hdot
      simp only [List.head?_cons, ne_eq, Option.some.injEq, Option.map_some] at hdot ⊢
      intro heq
      apply hdot
      have hc := h.ascii c (by rw [hname]; exact List.mem_cons_self)
      have hval := congrArg UInt8.toNat heq
      rw [UInt8.toNat_ofNat', show dot.toNat = 0x2e from rfl] at hval
      apply Char.toNat_inj.mp
      rw [show ('.' : Char).toNat = 0x2e from rfl]
      omega
  have hfile : ∀ c ∈ swiftFilename, c.toNat < 0x80 := by simp [swiftFilename]
  unfold Importable specifierAtom
  rw [JS_AtomToCString_ascii hfile, JS_AtomToCString_ascii h.ascii]
  dsimp only
  rw [hcut, js_default_module_normalize_name, if_pos hhead, Global.JS_NewAtom_plain h]

/-! ## One registration -/

/-- The first loaded definition of the module's name is the registered one. -/
def Filed (mods : List JSModuleDef) (p : ℕ) (m : JSModule) : Prop :=
  ∃ d, js_find_loaded_module mods (utf16 m.name) = some d ∧ d.ptr = p ∧
    d.init_func = some .JS_ModuleInit ∧ shape d.export_entries = m.exported.map (·, none)

theorem mem_of_js_find_loaded_module {mods : List JSModuleDef} {name : List UInt16}
    {d : JSModuleDef} (h : js_find_loaded_module mods name = some d) :
    d ∈ mods ∧ d.module_name = name :=
  ⟨List.mem_of_find?_eq_some h, by simpa using List.find?_some h⟩

/-- Definitions at different addresses. -/
theorem eq_of_ptr_eq {mods : List JSModuleDef} (hn : (addresses mods).Nodup)
    {d d' : JSModuleDef} (hd : d ∈ mods) (hd' : d' ∈ mods) (h : d.ptr = d'.ptr) : d = d' :=
  List.inj_on_of_nodup_map hn hd hd' h

theorem find_eq_some {mods : List JSModuleDef} (hn : (addresses mods).Nodup) {d : JSModuleDef}
    (hd : d ∈ mods) : find mods d.ptr = some d := by
  unfold find
  cases hfind : mods.find? (fun m => m.ptr = d.ptr) with
  | none => exact absurd (List.find?_eq_none.mp hfind d hd) (by simp)
  | some d' =>
    rw [eq_of_ptr_eq hn (List.mem_of_find?_eq_some hfind) hd (by simpa using List.find?_some hfind)]

/-- A loader that finds nothing. -/
def emptyHost (interned : AtomTable) : Host where
  interned := interned
  malloc := fun live => live.sum + 1
  malloc_fresh := by
    intro live hmem
    have := List.single_le_sum (fun _ _ => Nat.zero_le _) _ hmem
    omega
  js_load_file := fun _ => none
  dlopen := fun _ => none
  stack := 0

theorem loader_emptyHost (interned : AtomTable) (resolve : ℕ → ModuleEval.Engine PUnit)
    (cname : List UInt8) (mods : List JSModuleDef) :
    js_module_loader resolve (emptyHost interned) cname mods = .error .exception mods := by
  unfold js_module_loader
  split_ifs <;> rfl

/-- An import takes the first definition of its atom's name, and calls the loader where
there is none. -/
theorem js_host_resolve_run (resolve : ℕ → ModuleEval.Engine PUnit) (host : Host) (base name : List UInt16)
    (mods : List JSModuleDef) :
    ∃ cname, js_host_resolve_imported_module_atom resolve host base name mods =
      match specifierAtom host.interned base name with
      | none => .error .exception mods
      | some atom =>
        match js_find_loaded_module mods atom with
        | some d => .ok d.ptr mods
        | none => js_module_loader resolve host cname mods := by
  unfold js_host_resolve_imported_module_atom js_host_resolve_imported_module specifierAtom
  cases JS_AtomToCString base with
  | none => exact ⟨[], rfl⟩
  | some base_cname =>
    cases JS_AtomToCString name with
    | none => exact ⟨[], rfl⟩
    | some cname =>
      refine ⟨js_default_module_normalize_name (cString base_cname) (cString cname), ?_⟩
      dsimp only
      cases JS_NewAtom host.interned
        (js_default_module_normalize_name (cString base_cname) (cString cname)) with
      | none => rfl
      | some atom =>
        dsimp only
        change (match js_find_loaded_module mods atom with
          | some m => pure m.ptr
          | none => js_module_loader resolve host _ : ModuleEval.Engine ℕ) mods = _
        cases js_find_loaded_module mods atom <;> rfl

theorem found_of_shape {mods : List JSModuleDef} (hn : (addresses mods).Nodup) {d : JSModuleDef}
    (hd : d ∈ mods) {exported : List (List UInt16)}
    (hshape : shape d.export_entries = exported.map (·, none)) {u : List UInt16}
    (hu : u ∈ exported) (stack : ℕ) :
    ∃ me, me.export_name = u ∧ js_resolve_export mods (stack + 1) d.ptr u = .found d.ptr me := by
  have hnames : names d.export_entries = exported := by
    have := congrArg (List.map Prod.fst) hshape
    unfold shape at this
    rw [List.map_map, List.map_map] at this
    simpa [names, Function.comp_def] using this
  cases hfind : find_export_entry d.export_entries u with
  | none => exact absurd (hnames ▸ hu) (find_export_entry_eq_none.mp hfind)
  | some me =>
    have hmem : me ∈ d.export_entries := List.mem_of_find?_eq_some hfind
    refine ⟨me, by simpa using List.find?_some hfind, ?_⟩
    unfold js_resolve_export js_resolve_export1
    rw [if_neg (by simp), find_eq_some hn hd]
    dsimp only
    rw [hfind]
    dsimp only
    -- All entries of a registered module are local.
    cases hkind : me.kind with
    | typeLocal v => rfl
    | typeIndirect i =>
      have : (me.export_name, some i) ∈ shape d.export_entries := by
        unfold shape
        exact List.mem_map.mpr ⟨me, hmem, by rw [hkind]⟩
      rw [hshape] at this
      simp at this

/-- What a registration amounts to. -/
theorem registered_iff {interned : AtomTable} {mods : List JSModuleDef}
    (hn : (addresses mods).Nodup) {p : ℕ} {m : JSModule} :
    Registered interned mods p m ↔ Importable interned m.name ∧ Filed mods p m := by
  constructor
  · intro h
    obtain ⟨d, hd, hptr, hname, hinit, hshape⟩ := h.live
    -- With a loader that finds nothing, an import that resolves has found its atom.
    have himp := h.imported (fun _ => pure ⟨⟩) (emptyHost interned) rfl
    obtain ⟨cname, hrun⟩ := js_host_resolve_run (fun _ => pure ⟨⟩) (emptyHost interned)
      (utf16 swiftFilename) (utf16 m.name) mods
    rw [himp] at hrun
    cases hatom : specifierAtom (emptyHost interned).interned (utf16 swiftFilename)
        (utf16 m.name) with
    | none =>
      rw [hatom] at hrun
      cases hrun
    | some atom =>
      rw [hatom] at hrun
      dsimp only at hrun
      cases hfind : js_find_loaded_module mods atom with
      | none =>
        rw [hfind] at hrun
        dsimp only at hrun
        rw [loader_emptyHost] at hrun
        cases hrun
      | some d' =>
        rw [hfind] at hrun
        injection hrun with hptr'
        obtain ⟨hmem', hname'⟩ := mem_of_js_find_loaded_module hfind
        have hsame : d' = d := eq_of_ptr_eq hn hmem' hd (hptr'.symm.trans hptr.symm)
        rw [hsame, hname] at hname'
        rw [hsame, ← hname'] at hfind
        rw [← hname'] at hatom
        exact ⟨hatom, d, hfind, hptr, hinit, hshape⟩
  · rintro ⟨himp, d, hd, hptr, hinit, hshape⟩
    obtain ⟨hmem, hname⟩ := mem_of_js_find_loaded_module hd
    refine ⟨⟨d, hmem, hptr, hname, hinit, hshape⟩, ?_, ?_⟩
    · intro resolve host hhost
      obtain ⟨cname, hrun⟩ := js_host_resolve_run resolve host (utf16 swiftFilename)
        (utf16 m.name) mods
      rw [hrun, hhost, show specifierAtom interned (utf16 swiftFilename) (utf16 m.name)
        = some (utf16 m.name) from himp]
      dsimp only
      rw [hd, ← hptr]
    · intro u hu stack
      rw [← hptr]
      exact found_of_shape hn hmem hshape hu stack

/-! ## What a step does to the registrations -/

/-- Up to the clean-up the engine keeps what is filed. -/
theorem Filed.evolves {mods mods' : List JSModuleDef} (hev : Evolves mods mods') {p : ℕ}
    {m : JSModule} (h : Filed mods p m) : Filed mods' p m := by
  obtain ⟨d, hd, hptr, hinit, hshape⟩ := h
  have hsame : ∀ a b, Kept a b →
      decide (b.module_name = utf16 m.name) = decide (a.module_name = utf16 m.name) := by
    intro a b hab
    rw [hab.module_name]
  obtain ⟨d', hd', hkept⟩ := hev.kept.find? hsame hd
  exact ⟨d', hd', hkept.ptr.trans hptr, hkept.init_func.trans hinit,
    hkept.exported.trans hshape⟩

/-- The clean-up keeps what is filed exactly if it has been evaluated. -/
theorem filed_js_free_modules_iff {mods : List JSModuleDef} (hn : (addresses mods).Nodup) {p : ℕ}
    {m : JSModule} (h : Filed mods p m) :
    Filed (js_free_modules .JS_FREE_MODULE_NOT_EVALUATED mods) p m ↔
      ∀ d ∈ mods, d.ptr = p → d.evaluated = true := by
  obtain ⟨d, hd, hptr, hinit, hshape⟩ := h
  obtain ⟨hmem, -⟩ := mem_of_js_find_loaded_module hd
  constructor
  · rintro ⟨d', hd', hptr', -, -⟩ d₀ hd₀ hptr₀
    obtain ⟨hmem', -⟩ := mem_of_js_find_loaded_module hd'
    obtain ⟨hold, heval⟩ := List.mem_filter.mp hmem'
    rw [eq_of_ptr_eq hn hd₀ hold (hptr₀.trans hptr'.symm)]
    exact heval
  · intro hall
    have heval := hall d hmem hptr
    refine ⟨d, ?_, hptr, hinit, hshape⟩
    -- The first definition of the name survives, so it stays the first.
    unfold js_find_loaded_module js_free_modules at *
    rw [List.find?_eq_some_iff_append] at hd
    obtain ⟨hname, before, after, rfl, hbefore⟩ := hd
    rw [List.find?_eq_some_iff_append]
    refine ⟨hname, before.filter (fun m => m.evaluated), after.filter (fun m => m.evaluated), ?_,
      fun m hm => hbefore m (List.mem_filter.mp hm).1⟩
    rw [List.filter_append, List.filter_cons_of_pos heval]

/-- Only local exports are added. -/
theorem shape_addModuleExports (interned : AtomTable) (exports : List (List UInt8))
    {entries : List JSExportEntry} (h : shape entries = (names entries).map (·, none)) :
    shape (addModuleExports interned entries exports)
      = (names (addModuleExports interned entries exports)).map (·, none) := by
  induction exports generalizing entries with
  | nil => exact h
  | cons name exports ih =>
    apply ih
    dsimp only
    rw [JS_AddModuleExport_eq]
    cases JS_NewAtom interned name with
    | none => exact h
    | some atom =>
      dsimp only
      split_ifs
      · exact h
      · unfold shape names at h ⊢
        rw [List.map_append, List.map_append, List.map_append, h]
        rfl

/-- A registration appends a definition, unless its name has no atom. -/
theorem createModule_spec (host : Host) (name : List Char) (properties : List (List Char))
    (mods : List JSModuleDef) :
    match JS_NewAtom host.interned (utf8 name) with
    | none => createModule host name properties mods = .error .exception mods
    | some atom => ∃ d exported, d.ptr ∉ addresses mods ∧ d.module_name = atom ∧
        d.init_func = some .JS_ModuleInit ∧ shape d.export_entries = exported.map (·, none) ∧
        createModule host name properties mods
          = .ok (d.ptr, ⟨name, exported⟩) (mods ++ [d]) := by
  have hspec := JS_NewCModule_spec host (utf8 name) .JS_ModuleInit mods
  cases hatom : JS_NewAtom host.interned (utf8 name) with
  | none =>
    rw [hatom] at hspec
    exact bind_of_error hspec _
  | some atom =>
    rw [hatom] at hspec
    obtain ⟨p, hp, heq⟩ := hspec
    have hexports := @addModuleExport_forM host (properties.map utf8) mods
      { ptr := p, module_name := atom, init_func := some .JS_ModuleInit } hp
    set d : JSModuleDef := ⟨p, atom, [], addModuleExports host.interned [] (properties.map utf8),
      [], [], false, none, some .JS_ModuleInit, false, false, false, false, false, false⟩ with hd
    refine ⟨d, names d.export_entries, hp, rfl, rfl, shape_addModuleExports _ _ rfl, ?_⟩
    have hderef : deref p (mods ++ [d]) = .ok d (mods ++ [d]) := by
      unfold deref find
      rw [List.find?_append, List.find?_eq_none.mpr, Option.none_or,
        List.find?_cons_of_pos (by simp [hd])]
      intro m hm
      simp only [decide_eq_true_eq]
      exact fun hptr => hp (List.mem_map.mpr ⟨m, hm, hptr⟩)
    have hinit : JSModule.init host p name properties
        (mods ++ [{ ptr := p, module_name := atom, init_func := some .JS_ModuleInit }])
        = .ok ⟨name, names d.export_entries⟩ (mods ++ [d]) :=
      (bind_of_ok hexports _).trans (bind_of_ok hderef _)
    exact (bind_of_ok heq _).trans (bind_of_ok hinit _)

/-- How an eval ends: it crashes, or it leaves a list that has evolved, or it has called
`js_free_modules` on such a list. -/
theorem JS_Eval_cases (host : Host) (source : Option Script) (mods : List JSModuleDef) :
    (∃ mods', JS_Eval host source (utf8 swiftFilename) mods = .error .crash mods' ∧
        Evolves mods mods') ∨
      (∃ mods', (JS_Eval host source (utf8 swiftFilename) mods = .ok ⟨⟩ mods' ∨
          JS_Eval host source (utf8 swiftFilename) mods = .error .exception mods') ∧
        Evolves mods mods' ∧ freeModulesOn host source mods = none) ∨
      ∃ mods', JS_Eval host source (utf8 swiftFilename) mods
          = .error .exception (js_free_modules .JS_FREE_MODULE_NOT_EVALUATED mods') ∧
        Evolves mods mods' ∧ freeModulesOn host source mods = some mods' := by
  have hcompile := respects_compileModule host
    (respects_js_resolve_module host host.stack) source (utf8 swiftFilename) mods
  unfold freeModulesOn JS_Eval
  cases hc : compileModule (js_resolve_module host host.stack) host source (utf8 swiftFilename)
      mods with
  | error e mods₁ =>
    rw [final_of_error hc] at hcompile
    rw [bind_of_error hc]
    cases e with
    | crash => exact Or.inl ⟨mods₁, rfl, hcompile⟩
    | exception => exact Or.inr (Or.inl ⟨mods₁, Or.inr rfl, hcompile, rfl⟩)
  | ok p mods₁ =>
    rw [final_of_ok hc] at hcompile
    rw [bind_of_ok hc]
    have hrun := trans_of Evolves hcompile (respects_runModule host p mods₁)
    unfold JS_EvalFunctionInternal
    dsimp only
    cases hr : runModule host p mods₁ with
    | ok u mods₂ =>
      rw [final_of_ok hr] at hrun
      rw [onFailure_of_ok hr]
      exact Or.inr (Or.inl ⟨mods₂, Or.inl rfl, hrun, rfl⟩)
    | error e mods₂ =>
      rw [final_of_error hr] at hrun
      rw [onFailure_of_error hr]
      cases e with
      | crash => exact Or.inl ⟨mods₂, rfl, hrun⟩
      | exception => exact Or.inr (Or.inr ⟨mods₂, rfl, hrun, rfl⟩)

/-! ## One step -/

/-- Addresses and keys are different in every state. -/
structure Distinct (s : JSContext) : Prop where
  addresses : (addresses s.loaded_modules).Nodup
  keys : (s.modules.map Prod.fst).Nodup

theorem nodup_setModule {modules : List (ℕ × JSModule)} (h : (modules.map Prod.fst).Nodup)
    (p : ℕ) (m : JSModule) : ((setModule modules p m).map Prod.fst).Nodup := by
  unfold setModule
  rw [List.map_append, List.nodup_append]
  refine ⟨h.sublist (List.filter_sublist.map _), List.nodup_singleton _, ?_⟩
  rintro a ha b hb rfl
  obtain ⟨kv, hkv, rfl⟩ := List.mem_map.mp ha
  rw [List.map_singleton, List.mem_singleton] at hb
  exact absurd hb (by simpa using (List.mem_filter.mp hkv).2)

theorem nodup_js_free_modules {mods : List JSModuleDef} (h : (addresses mods).Nodup)
    (flag : JSFreeModuleEnum) : (addresses (js_free_modules flag mods)).Nodup :=
  h.sublist (List.filter_sublist.map _)

theorem distinct_step (s : JSContext) (a : Step) (h : Distinct s) : Distinct (step s a) := by
  cases a with
  | module host name properties =>
    have hspec := createModule_spec host name properties s.loaded_modules
    rw [step]
    cases hatom : JS_NewAtom host.interned (utf8 name) with
    | none =>
      rw [hatom] at hspec
      rw [hspec]
      exact ⟨h.addresses, h.keys⟩
    | some atom =>
      rw [hatom] at hspec
      obtain ⟨d, exported, hfresh, -, -, -, heq⟩ := hspec
      rw [heq]
      exact ⟨(evolves_append hfresh).nodup h.addresses, nodup_setModule h.keys _ _⟩
  | eval host source =>
    rw [step]
    rcases JS_Eval_cases host source s.loaded_modules with
      ⟨mods, heq, hev⟩ | ⟨mods, heq | heq, hev, -⟩ | ⟨mods, heq, hev, -⟩
    · rw [heq]
      exact ⟨hev.nodup h.addresses, h.keys⟩
    · rw [heq]
      exact ⟨hev.nodup h.addresses, h.keys⟩
    · rw [heq]
      exact ⟨hev.nodup h.addresses, h.keys⟩
    · rw [heq]
      exact ⟨nodup_js_free_modules (hev.nodup h.addresses) .JS_FREE_MODULE_NOT_EVALUATED, h.keys⟩

/-- With different keys, every lookup finds its module. -/
theorem loadModule_eq {modules : List (ℕ × JSModule)} (h : (modules.map Prod.fst).Nodup)
    {kv : ℕ × JSModule} (hkv : kv ∈ modules) : loadModule modules kv.1 = some kv.2 := by
  unfold loadModule
  cases hfind : modules.find? (fun x => x.1 = kv.1) with
  | none => exact absurd (List.find?_eq_none.mp hfind kv hkv) (by simp)
  | some kv' =>
    have hkey : kv'.1 = kv.1 := by simpa using List.find?_some hfind
    rw [List.inj_on_of_nodup_map h (List.mem_of_find?_eq_some hfind) hkv hkey]
    rfl

/-- What there is to show in a state. -/
theorem inStep_iff {s : JSContext} (h : Distinct s) :
    InStep s ↔ s.crashed = false ∧ ∀ kv ∈ s.modules,
      Importable s.interned kv.2.name ∧ Filed s.loaded_modules kv.1 kv.2 := by
  constructor
  · intro hin
    exact ⟨hin.running, fun kv hkv => (registered_iff h.addresses).mp (hin.registered kv hkv)⟩
  · rintro ⟨hrun, hall⟩
    exact ⟨hrun, fun kv hkv => (registered_iff h.addresses).mpr (hall kv hkv),
      fun kv hkv => loadModule_eq h.keys hkv⟩

/-- A pointer that is no key is added. -/
theorem mem_setModule_of_new {modules : List (ℕ × JSModule)} {p : ℕ} (m : JSModule)
    (hnew : ∀ kv ∈ modules, kv.1 ≠ p) (kv : ℕ × JSModule) :
    kv ∈ setModule modules p m ↔ kv ∈ modules ∨ kv = (p, m) := by
  unfold setModule
  rw [List.mem_append, List.mem_filter, List.mem_singleton]
  constructor
  · rintro (⟨hkv, -⟩ | hkv)
    · exact Or.inl hkv
    · exact Or.inr hkv
  · rintro (hkv | hkv)
    · exact Or.inl ⟨hkv, by simpa using hnew kv hkv⟩
    · exact Or.inr hkv

/-- A new definition is the first of its name exactly if the name was not loaded. -/
theorem filed_append_iff {mods : List JSModuleDef} {d : JSModuleDef} {m : JSModule}
    (haddresses : (mods.map (·.ptr)).Nodup) (hfresh : d.ptr ∉ mods.map (·.ptr))
    (hinit : d.init_func = some .JS_ModuleInit)
    (hshape : shape d.export_entries = m.exported.map (·, none)) :
    Filed (mods ++ [d]) d.ptr m ↔
      d.module_name = utf16 m.name ∧ js_find_loaded_module mods d.module_name = none := by
  constructor
  · rintro ⟨d', hd', hptr', -, -⟩
    obtain ⟨hmem', hname'⟩ := mem_of_js_find_loaded_module hd'
    have hsame : d' = d := eq_of_ptr_eq ((evolves_append hfresh).nodup haddresses) hmem'
      (List.mem_append_right _ (List.mem_singleton.mpr rfl)) hptr'
    have hutf : d.module_name = utf16 m.name := by rw [← hsame, hname']
    refine ⟨hutf, ?_⟩
    unfold js_find_loaded_module at hd' ⊢
    rw [hutf]
    cases hold : mods.find? (fun d => d.module_name = utf16 m.name) with
    | none => rfl
    | some d₀ =>
      -- The first of the name is an old definition, and has another pointer.
      rw [List.find?_append, hold, Option.some_or, Option.some_inj] at hd'
      exact absurd (List.mem_map.mpr ⟨d₀, List.mem_of_find?_eq_some hold,
        by rw [hd', hsame]⟩) hfresh
  · rintro ⟨hutf, hnone⟩
    refine ⟨d, ?_, rfl, hinit, hshape⟩
    unfold js_find_loaded_module at hnone ⊢
    rw [hutf] at hnone
    rw [List.find?_append, hnone, Option.none_or]
    exact List.find?_cons_of_pos (by simpa using hutf)

/-- A registration keeps the stores in step exactly under its condition. -/
theorem inStep_module_iff {s : JSContext} (hd : Distinct s) (hin : InStep s) (host : Host)
    (name : List Char) (properties : List (List Char)) :
    InStep (step s (.module host name properties)) ↔
      StepOk s (.module host name properties) := by
  obtain ⟨hrun, hall⟩ := (inStep_iff hd).mp hin
  rw [inStep_iff (distinct_step s _ hd)]
  rw [step]
  unfold StepOk
  dsimp only [Step.host]
  have hspec := createModule_spec host name properties s.loaded_modules
  cases hatom : JS_NewAtom host.interned (utf8 name) with
  | none =>
    rw [hatom] at hspec
    rw [hspec, JSContext.after]
    dsimp only
    constructor
    · rintro ⟨-, h⟩
      exact ⟨fun kv hkv => (h kv hkv).1, by simp⟩
    · rintro ⟨h, -⟩
      exact ⟨hrun, fun kv hkv => ⟨h kv hkv, (hall kv hkv).2⟩⟩
  | some atom =>
    rw [hatom] at hspec
    obtain ⟨d, exported, hfresh, hname, hinit, hshape, heq⟩ := hspec
    rw [heq, JSContext.after]
    dsimp only
    have hev := evolves_append hfresh
    -- No key is the new pointer: the registered definitions are live.
    have hkeys : ∀ kv ∈ s.modules, kv.1 ≠ d.ptr := by
      intro kv hkv hptr
      obtain ⟨d', hd', hptr', -⟩ := (hall kv hkv).2
      exact hfresh (List.mem_map.mpr ⟨d', (mem_of_js_find_loaded_module hd').1,
        hptr'.trans hptr⟩)
    have hmem := mem_setModule_of_new ⟨name, exported⟩ hkeys
    have hfiled : Filed (s.loaded_modules ++ [d]) d.ptr ⟨name, exported⟩ ↔
        atom = utf16 name ∧ js_find_loaded_module s.loaded_modules atom = none := by
      rw [filed_append_iff hd.addresses hfresh hinit hshape, hname]
    constructor
    · rintro ⟨-, h⟩
      obtain ⟨himp, hnew⟩ := h _ ((hmem _).mpr (Or.inr rfl))
      refine ⟨fun kv hkv => (h kv ((hmem kv).mpr (Or.inl hkv))).1, ?_⟩
      intro atom' hatom'
      rw [Option.some_inj] at hatom'
      subst hatom'
      exact ⟨(hfiled.mp hnew).1, himp, (hfiled.mp hnew).2⟩
    · rintro ⟨hold, hnew⟩
      obtain ⟨hutf, himp, hnone⟩ := hnew atom rfl
      refine ⟨hrun, fun kv hkv => ?_⟩
      rcases (hmem kv).mp hkv with hkv | rfl
      · exact ⟨hold kv hkv, (hall kv hkv).2.evolves hev⟩
      · exact ⟨himp, hfiled.mpr ⟨hutf, hnone⟩⟩

/-- An eval keeps the stores in step exactly under its condition. -/
theorem inStep_eval_iff {s : JSContext} (hd : Distinct s) (hin : InStep s) (host : Host)
    (source : Option Script) :
    InStep (step s (.eval host source)) ↔ StepOk s (.eval host source) := by
  obtain ⟨hrun, hall⟩ := (inStep_iff hd).mp hin
  rw [inStep_iff (distinct_step s _ hd)]
  rw [step]
  unfold StepOk
  dsimp only [Step.host]
  -- An eval that does not reach the clean-up asks for importable names only.
  have hkept : ∀ mods, Evolves s.loaded_modules mods →
      freeModulesOn host source s.loaded_modules = none →
      ∀ {r : EStateM.Result Failure (List JSModuleDef) PUnit}, (∀ mods', r ≠ .error .crash mods') →
      ((s.crashed = false ∧ ∀ kv ∈ s.modules,
          Importable host.interned kv.2.name ∧ Filed mods kv.1 kv.2) ↔
        (∀ kv ∈ s.modules, Importable host.interned kv.2.name) ∧
          (∀ mods', r ≠ .error .crash mods') ∧
          ∀ mods', freeModulesOn host source s.loaded_modules = some mods' →
            ∀ d ∈ mods', (∃ kv ∈ s.modules, kv.1 = d.ptr) → d.evaluated = true) := by
    intro mods hev hfree r hr
    constructor
    · rintro ⟨-, h⟩
      exact ⟨fun kv hkv => (h kv hkv).1, hr, by rw [hfree]; simp⟩
    · rintro ⟨h, -, -⟩
      exact ⟨hrun, fun kv hkv => ⟨h kv hkv, (hall kv hkv).2.evolves hev⟩⟩
  rcases JS_Eval_cases host source s.loaded_modules with
    ⟨mods, heq, -⟩ | ⟨mods, heq | heq, hev, hfree⟩ | ⟨mods, heq, hev, hfree⟩
  · rw [heq, JSContext.after]
    refine iff_of_false (by simp) ?_
    rintro ⟨-, hcrash, -⟩
    exact hcrash mods rfl
  · rw [heq, JSContext.after]
    exact hkept mods hev hfree (fun _ => by simp)
  · rw [heq, JSContext.after]
    exact hkept mods hev hfree (fun _ => by simp)
  · rw [heq, JSContext.after, hfree]
    dsimp only
    have hfiled : ∀ kv ∈ s.modules,
        (Filed (js_free_modules .JS_FREE_MODULE_NOT_EVALUATED mods) kv.1 kv.2 ↔
          ∀ d ∈ mods, d.ptr = kv.1 → d.evaluated = true) := fun kv hkv =>
      filed_js_free_modules_iff (hev.nodup hd.addresses) ((hall kv hkv).2.evolves hev)
    constructor
    · rintro ⟨-, h⟩
      refine ⟨fun kv hkv => (h kv hkv).1, fun _ => by simp, ?_⟩
      rintro mods' hmods' d hd' ⟨kv, hkv, hptr⟩
      rw [Option.some_inj] at hmods'
      subst hmods'
      exact (hfiled kv hkv).mp (h kv hkv).2 d hd' hptr.symm
    · rintro ⟨himp, -, heval⟩
      refine ⟨hrun, fun kv hkv => ⟨himp kv hkv, (hfiled kv hkv).mpr ?_⟩⟩
      intro d hd' hptr
      exact heval mods rfl d hd' ⟨kv, hkv, hptr.symm⟩

/-- **One step** keeps the stores in step exactly if it meets its condition. -/
theorem inStep_step_iff (s : JSContext) (a : Step) (hd : Distinct s) (hin : InStep s) :
    InStep (step s a) ↔ StepOk s a := by
  cases a with
  | module host name properties => exact inStep_module_iff hd hin host name properties
  | eval host source => exact inStep_eval_iff hd hin host source

/-! ## Whole runs -/

theorem distinct_createContext (host : Host) (std : Library) :
    Distinct (createContext host std) := by
  refine ⟨?_, List.nodup_nil⟩
  have hbuild : Respects Evolves (contextBuilder host std) := by
    unfold contextBuilder
    refine respects_bind (respects_js_init_module host _ std) fun _ => ?_
    exact respects_bind (respects_js_init_module host _ std) fun _ => respects_pure _
  exact (hbuild []).nodup List.nodup_nil

theorem inStep_createContext (host : Host) (std : Library) : InStep (createContext host std) := by
  rw [inStep_iff (distinct_createContext host std)]
  exact ⟨rfl, by simp [createContext]⟩

/-- **Registry and engine stay in step** over a run of registrations and module evals
exactly if every step meets its condition. -/
theorem registry_in_step_iff (host : Host) (std : Library) (steps : List Step) :
    Run.Always step InStep (createContext host std) steps ↔
      Run.Meets step StepOk (createContext host std) steps := by
  rw [Run.always_iff_meets distinct_step inStep_step_iff (distinct_createContext host std)]
  exact and_iff_right (inStep_createContext host std)

/-- A host with room for a few calls and nothing to load. -/
def smallHost : Host := { emptyHost [] with stack := 4 }

/-- The module `throw 1`. -/
def throwing : Script := ⟨[], [], [], [], ⟨true, false⟩⟩

/-- A registration followed by the module eval of `throw 1`: the registered module has not
been evaluated, and is freed with it. -/
theorem registered_freed_by_throw :
    ¬ Run.Always step InStep (createContext smallHost ⟨[], true⟩)
      [.module smallHost ['a'] [['f']], .eval smallHost (some throwing)] := by
  intro h
  have hlast : InStep (Run.exec step (createContext smallHost ⟨[], true⟩)
      [.module smallHost ['a'] [['f']], .eval smallHost (some throwing)]) := h.last
  have hkeys : 4 ∈ (Run.exec step (createContext smallHost ⟨[], true⟩)
      [.module smallHost ['a'] [['f']], .eval smallHost (some throwing)]).modules.map Prod.fst := by
    decide +kernel
  have hlive : 4 ∉ addresses (Run.exec step (createContext smallHost ⟨[], true⟩)
      [.module smallHost ['a'] [['f']], .eval smallHost (some throwing)]).loaded_modules := by
    decide +kernel
  obtain ⟨kv, hkv, hkey⟩ := List.mem_map.mp hkeys
  obtain ⟨d, hd, hptr, -⟩ := (hlast.registered kv hkv).live
  exact hlive (List.mem_map.mpr ⟨d, hd, hptr.trans hkey⟩)

/-! ## Conditions on what a step finds

The condition on an eval speaks of the list that its clean-up finds. A module that has been
evaluated before an eval has still been evaluated then. -/

/-- Every registered module has been evaluated. -/
def AllEvaluated (s : JSContext) : Prop :=
  ∀ kv ∈ s.modules, ∀ d ∈ s.loaded_modules, d.ptr = kv.1 → d.evaluated = true

/-- As `StepOk`, for an eval by the state before it: if it can come to the clean-up, every
registered module has been evaluated. -/
def StepReady (s : JSContext) : Step → Prop
  | .module host name properties => StepOk s (.module host name properties)
  | .eval host source =>
    (∀ kv ∈ s.modules, Importable host.interned kv.2.name) ∧
      (∀ mods, JS_Eval host source (utf8 swiftFilename) s.loaded_modules ≠ .error .crash mods) ∧
        (freeModulesOn host source s.loaded_modules ≠ none → AllEvaluated s)

theorem allEvaluated_evolves {s : JSContext} (hd : Distinct s) (hin : InStep s)
    {mods : List JSModuleDef} (hev : Evolves s.loaded_modules mods) (h : AllEvaluated s) :
    ∀ d ∈ mods, (∃ kv ∈ s.modules, kv.1 = d.ptr) → d.evaluated = true := by
  rintro d hmem ⟨kv, hkv, hptr⟩
  obtain ⟨d₀, hd₀, hptr₀, -⟩ := (hin.registered kv hkv).live
  have hfind := find_eq_some hd.addresses hd₀
  obtain ⟨d', hfind', hkept⟩ := hev.kept.find? (fun a b hab => by rw [hab.ptr]) hfind
  -- The definition at the address is the one that was registered.
  have hsame : d = d' := eq_of_ptr_eq (hev.nodup hd.addresses) hmem
    (List.mem_of_find?_eq_some hfind') (by rw [hkept.ptr, hptr₀, hptr])
  rw [hsame]
  exact hkept.evaluated (h kv hkv d₀ hd₀ hptr₀)

theorem stepOk_of_ready {s : JSContext} (hd : Distinct s) (hin : InStep s) {a : Step}
    (h : StepReady s a) : StepOk s a := by
  cases a with
  | module host name properties => exact h
  | eval host source =>
    obtain ⟨himportable, hcrash, hevaluated⟩ := h
    refine ⟨himportable, hcrash, fun mods hfree => ?_⟩
    have hready := hevaluated (by rw [hfree]; exact Option.some_ne_none mods)
    rcases JS_Eval_cases host source s.loaded_modules with
      ⟨mods', heq, -⟩ | ⟨-, -, -, hnone⟩ | ⟨mods', -, hev, hsome⟩
    · exact absurd heq (hcrash mods')
    · rw [hnone] at hfree
      cases hfree
    · rw [hfree, Option.some_inj] at hsome
      rw [hsome]
      exact allEvaluated_evolves hd hin hev hready

/-- The module `import { f } from "a"`. -/
def importing : Script := ⟨[utf16 ['a']], [], [], [⟨utf16 ['f'], 0⟩], ⟨true, true⟩⟩

theorem not_crash {source : Option Script} {loaded : List JSModuleDef}
    (h : (match JS_Eval smallHost source (utf8 swiftFilename) loaded with
      | .error .crash _ => true
      | _ => false) = false) (mods : List JSModuleDef) :
    JS_Eval smallHost source (utf8 swiftFilename) loaded ≠ .error .crash mods := by
  intro heq
  rw [heq] at h
  cases h

/-- **Evaluated before.** A run keeps the stores in step where every step is ready for what it
finds. -/
theorem inStep_of_ready (host : Host) (std : Library) (steps : List Step)
    (h : Run.Meets step StepReady (createContext host std) steps) :
    Run.Always step InStep (createContext host std) steps := by
  have hstep : ∀ s a, Distinct s ∧ InStep s → StepReady s a →
      Distinct (step s a) ∧ InStep (step s a) := by
    rintro s a ⟨hd, hin⟩ hready
    exact ⟨distinct_step s a hd, (inStep_step_iff s a hd hin).mpr (stepOk_of_ready hd hin hready)⟩
  exact (Run.always_of_meets hstep ⟨distinct_createContext host std, inStep_createContext host std⟩ h).imp
    (fun _ hs => hs.2)

/-- The registered module is imported, and so evaluated, before the module eval that throws. -/
theorem inStep_imported_then_thrown :
    Run.Always step InStep (createContext smallHost ⟨[], true⟩)
      [.module smallHost ['a'] [['f']], .eval smallHost (some importing),
        .eval smallHost (some throwing)] := by
  refine inStep_of_ready _ _ _ ⟨⟨?_, fun atom h => ?_⟩, ⟨?_, not_crash ?_, fun h => absurd h ?_⟩,
    ⟨?_, not_crash ?_, fun _ => ?_⟩, trivial⟩
  · simp [createContext]
  · have hatom : JS_NewAtom smallHost.interned (utf8 ['a']) = some (utf16 ['a']) := by
      decide +kernel
    obtain rfl := Option.some.inj (h.symm.trans hatom)
    refine ⟨rfl, ?_, ?_⟩
    · rw [Importable]
      decide +kernel
    · decide +kernel
  · simp only [Importable]
    decide +kernel
  · decide +kernel
  · -- The import succeeds, so nothing is cleaned up.
    rw [not_not, ← Option.isNone_iff_eq_none]
    decide +kernel
  · simp only [Importable]
    decide +kernel
  · decide +kernel
  · rw [AllEvaluated]
    decide +kernel

end QuickJSSwift.Registry
