/-
Native functions over the life of a context: `JSFunction` (`JSFunction.swift`), the
modules that hold them (`JSModule.swift`), and the function values the engine makes of
them (`js_c_function_data_call`, `JS_NewCFunctionData`, `quickjs.c`).

A `JSModuleFunction` is a Swift object. Adding it to a context builds a JS function value
that knows the object only as an unretained pointer, and the object keeps that value
without owning it (`autoFree` is false). Placed into a second module the object is built
again and forgets the first value. `load()` hands the current values over to the engine.

A `Session` is a context with everything that can happen to these objects while it is
alive: the user creates, keeps and drops them and registers modules and functions, the
engine resolves a module, creates its cells, runs its init callback, or frees the modules
it has not resolved or not evaluated. Strong references are those of the user's code and those of the
dictionaries of modules that somebody holds.
-/
import QuickJSSwift.Value
import QuickJSSwift.Dictionary
import QuickJSSwift.ModuleDef
import Mathlib.Logic.Function.Basic

set_option autoImplicit false

namespace QuickJSSwift.Session

open Utf Text ModuleDef

/-! ## Objects, values and modules -/

/-- A `JSModuleFunction`. Blocks are numbered; `users` counts the references of the
user's code. -/
structure JSFunction where
  name : List Char
  argc : ℤ
  block : ℕ
  cValue : Option ℕ
  users : ℕ
  deriving Inhabited

/-- A function value: the record of `JS_NewCFunctionData` with the pointer its
function-data object holds. Also the block it was built with, whether it has come into an
export's variable, and how often its creation reference has been moved or freed. -/
structure FunctionValue where
  length : ℤ
  data : ℕ
  block : ℕ
  exported : Bool
  handovers : ℕ
  deriving Inhabited

/-- A `JSModule` with its definition in the engine: `live` until the engine frees it.
`registered` says that `JSContext.modules` holds the module. -/
structure JSModule where
  properties : Dictionary ℕ
  export_entries : List JSExportEntry
  resolved : Bool
  func_created : Bool
  loaded : Bool
  live : Bool
  registered : Bool
  users : ℕ
  deriving Inhabited

/-- Somebody holds the `JSModule`. -/
def JSModule.held (m : JSModule) : Bool := m.registered || decide (0 < m.users)

/-- The objects, values and modules of a context, each numbered in order of creation. -/
structure State where
  objects : ℕ → JSFunction
  objectCount : ℕ
  values : ℕ → FunctionValue
  valueCount : ℕ
  modules : ℕ → JSModule
  moduleCount : ℕ
  crashed : Bool

/-- A new context. -/
def State.empty : State := ⟨fun _ => default, 0, fun _ => default, 0, fun _ => default, 0, false⟩

def State.setObject (s : State) (o : ℕ) (f : JSFunction → JSFunction) : State :=
  { s with objects := Function.update s.objects o (f (s.objects o)) }

def State.setValue (s : State) (v : ℕ) (f : FunctionValue → FunctionValue) : State :=
  { s with values := Function.update s.values v (f (s.values v)) }

def State.setModule (s : State) (i : ℕ) (f : JSModule → JSModule) : State :=
  { s with modules := Function.update s.modules i (f (s.modules i)) }

/-- The object has a strong reference. -/
def State.holds (s : State) (o : ℕ) : Bool :=
  decide (0 < (s.objects o).users) ||
    (List.range s.moduleCount).any (fun i =>
      (s.modules i).held && (s.modules i).properties.any (fun kv => kv.2 = o))

/-! ## Calling a function value -/

/-- What comes of a call: the pointer is that of an object that is gone, or a block runs. -/
inductive Dispatch
  | dangling
  | runs (block : ℕ) (ctx : ℕ) (this : JSCValue) (argc : ℕ) (argv : List JSCValue)
  deriving DecidableEq

/-- `callRealFunction`, up to the call of the block. -/
def callRealFunction (s : State) (self : ℕ) (ctx : ℕ) (this : JSCValue) (argc : ℕ)
    (argv : List JSCValue) : Dispatch :=
  .runs (s.objects self).block ctx this argc argv

/-- The `dataFunction` of `buildFunction`. While the context is alive its opaque pointer
is set, and so is that of the function-data object. -/
def dataFunction (s : State) (ctx : ℕ) (this : JSCValue) (argc : ℕ) (argv : List JSCValue)
    (data : ℕ) : Dispatch :=
  if s.holds data then callRealFunction s data ctx this argc argv else .dangling

/-- The arguments of `js_c_function_data_call`, filled up to the declared length. -/
def arg_buf (length : ℤ) (argv : List JSCValue) : List JSCValue :=
  if (argv.length : ℤ) < length then
    argv ++ List.replicate (length - argv.length).toNat .undefined
  else argv

/-- `js_c_function_data_call`. -/
def js_c_function_data_call (s : State) (func_obj : ℕ) (ctx : ℕ) (this_val : JSCValue)
    (argv : List JSCValue) : Dispatch :=
  dataFunction s ctx this_val argv.length (arg_buf (s.values func_obj).length argv)
    (s.values func_obj).data

/-! ## Building and exporting -/

/-- `buildFunction`. The value that was built before is overwritten. -/
def State.buildFunction (s : State) (o : ℕ) : State :=
  let f := s.objects o
  { (s.setObject o (fun f => { f with cValue := some s.valueCount })).setValue s.valueCount
      (fun _ => ⟨f.argc, o, f.block, false, 0⟩) with
    valueCount := s.valueCount + 1 }

/-- `addExport`. The definition may have been freed. -/
def State.addExport (s : State) (i : ℕ) (interned : AtomTable) (name : List Char) : State :=
  if (s.modules i).live then
    s.setModule i (fun m => { m with
      export_entries := (JS_AddModuleExport interned m.export_entries (utf8 name)).1 })
  else { s with crashed := true }

variable (swift : Stdlib)

/-- The properties of a new module. The user can only place what it holds. -/
def State.builderProperties (s : State) (children : List ℕ) : Dictionary ℕ :=
  (children.filter (fun o => decide (o < s.objectCount) &&
    decide (0 < (s.objects o).users))).foldl (fun d o => swift.set d (s.objects o).name o) []

/-- The new module, before its properties are added. -/
def State.newModule (s : State) (properties : Dictionary ℕ) : State :=
  { s.setModule s.moduleCount (fun _ => ⟨properties, [], false, false, false, true, true, 1⟩) with
    moduleCount := s.moduleCount + 1 }

/-- `JSModule.init` and its registration. -/
def State.module (s : State) (interned : AtomTable) (children : List ℕ) : State :=
  let properties := s.builderProperties swift children
  (swift.order properties).foldl
    (fun t kv => (t.buildFunction kv.2).addExport s.moduleCount interned kv.1)
    (s.newModule properties)

/-- `JSModuleFunction.init`, with `users` references. -/
def State.newFunction (s : State) (name : List Char) (argc : ℤ) (block users : ℕ) : State :=
  { s.setObject s.objectCount (fun _ => ⟨name, argc, block, none, users⟩) with
    objectCount := s.objectCount + 1 }

/-- The new function of `function(_:argc:block:)`, built and in the dictionary. The
dictionary keeps it, the caller does not. -/
def State.placeFunction (s : State) (i : ℕ) (name : List Char) (argc : ℤ) (block : ℕ) : State :=
  ((s.newFunction name argc block 0).buildFunction s.objectCount).setModule i (fun m => { m with
    properties := swift.set m.properties name s.objectCount })

/-- `function(_:argc:block:)`. -/
def State.function (s : State) (i : ℕ) (interned : AtomTable) (name : List Char) (argc : ℤ)
    (block : ℕ) : State :=
  (s.placeFunction swift i name argc block).addExport i interned name

/-- `jsValue` of a property. -/
def State.jsValue (s : State) (o : ℕ) : Content :=
  match (s.objects o).cValue with
  | none => .undefined
  | some v => .function v

/-- The creation reference of a property's value leaves Swift. -/
def State.handOver (s : State) (o : ℕ) : State :=
  match (s.objects o).cValue with
  | none => s
  | some v => s.setValue v (fun f => { f with handovers := f.handovers + 1 })

/-- One `setExport` of `load()`. -/
def State.setExport (s : State) (i : ℕ) (interned : AtomTable) (kv : List Char × ℕ) : State :=
  match JS_SetModuleExport interned (s.modules i).export_entries (utf8 kv.1) (s.jsValue kv.2) with
  | .stored entries => (s.setModule i (fun m => { m with export_entries := entries })).handOver kv.2
  | .freed => s.handOver kv.2
  | .nullDereference => { s with crashed := true }

/-- A variable of the module holds the value. -/
def JSModule.exports (m : JSModule) (v : ℕ) : Bool :=
  m.export_entries.any (fun me => me.var_ref == some (.function v))

/-- `load()`. Once it is done JS code can read the variables. -/
def State.load (s : State) (i : ℕ) (interned : AtomTable) : State :=
  let s := (swift.order (s.modules i).properties).foldl (fun s kv => s.setExport i interned kv) s
  { s.setModule i (fun m => { m with loaded := true }) with
    values := fun v => { s.values v with
      exported := (s.values v).exported || (s.modules i).exports v } }

/-! ## Steps -/

/-- What can happen. `module` may reuse the address of a definition that was freed, in
which case it takes that module's place in `JSContext.modules`. -/
inductive Step
  | newFunction (name : List Char) (argc : ℤ) (block : ℕ)
  | retain (o : ℕ)
  | release (o : ℕ)
  | module (interned : AtomTable) (children : List ℕ) (reuses : Option ℕ)
  | retainModule (i : ℕ)
  | releaseModule (i : ℕ)
  | function (i : ℕ) (interned : AtomTable) (name : List Char) (argc : ℤ) (block : ℕ)
  | resolve (i : ℕ)
  | instantiate (i : ℕ)
  | evaluate (i : ℕ) (interned : AtomTable)
  | freeNotResolved
  | freeNotEvaluated

/-- The registry forgets the module whose address is used again. -/
def State.unregister (s : State) : Option ℕ → State
  | none => s
  | some i => if (s.modules i).live then s else s.setModule i (fun m => { m with registered := false })

/-- `js_free_modules`, for the modules of which `keep` is false. -/
def State.js_free_modules (s : State) (keep : JSModule → Bool) : State :=
  { s with modules := fun i => { s.modules i with
    live := (s.modules i).live && keep (s.modules i) } }

/-- One step. A reference can be taken to what somebody holds, the user may have kept it
weakly; and only what the user holds can be given up. -/
def step (s : State) : Step → State
  | .newFunction name argc block => s.newFunction name argc block 1
  | .retain o =>
    if s.holds o then s.setObject o (fun f => { f with users := f.users + 1 }) else s
  | .release o => s.setObject o (fun f => { f with users := f.users - 1 })
  | .module interned children reuses => (s.unregister reuses).module swift interned children
  | .retainModule i =>
    if (s.modules i).held then s.setModule i (fun m => { m with users := m.users + 1 }) else s
  | .releaseModule i => s.setModule i (fun m => { m with users := m.users - 1 })
  | .function i interned name argc block =>
    if i < s.moduleCount ∧ (s.modules i).held then s.function swift i interned name argc block
    else s
  | .resolve i =>
    if (s.modules i).live then s.setModule i (fun m => { m with resolved := true }) else s
  | .instantiate i =>
    if (s.modules i).live && (s.modules i).resolved && !(s.modules i).func_created then
      s.setModule i (fun m => { m with
        export_entries := createCells m.export_entries
        func_created := true })
    else s
  | .evaluate i interned =>
    if (s.modules i).live && (s.modules i).func_created && !(s.modules i).loaded then
      s.load swift i interned
    else s
  | .freeNotResolved => s.js_free_modules JSModule.resolved
  | .freeNotEvaluated =>
    -- the init callback is what evaluates a native module
    s.js_free_modules JSModule.loaded

/-! ## What building leaves

Adding properties to a module builds their functions one after another. `Builds s s' os`
is all that this changes: the objects `os` have new values, and there are new values, all
of them of these objects. -/

/-- What no building changes of an object. -/
structure SameObject (f f' : JSFunction) : Prop where
  name : f'.name = f.name
  argc : f'.argc = f.argc
  block : f'.block = f.block
  users : f'.users = f.users

/-- What no building changes of a module; a new entry has no variable. -/
structure SameModule (m m' : JSModule) : Prop where
  properties : m'.properties = m.properties
  resolved : m'.resolved = m.resolved
  func_created : m'.func_created = m.func_created
  loaded : m'.loaded = m.loaded
  live : m'.live = m.live
  registered : m'.registered = m.registered
  users : m'.users = m.users
  entries : ∀ me ∈ m'.export_entries, me ∈ m.export_entries ∨ me.var_ref = none

structure Builds (s s' : State) (os : List ℕ) : Prop where
  objectCount : s'.objectCount = s.objectCount
  moduleCount : s'.moduleCount = s.moduleCount
  crashed : s'.crashed = s.crashed
  objects : ∀ o, SameObject (s.objects o) (s'.objects o)
  modules : ∀ i, SameModule (s.modules i) (s'.modules i)
  valueCount : s.valueCount ≤ s'.valueCount
  old : ∀ v < s.valueCount, s'.values v = s.values v
  other : ∀ o ∉ os, (s'.objects o).cValue = (s.objects o).cValue
  current : ∀ o ∈ os, ∃ v, (s'.objects o).cValue = some v ∧ s.valueCount ≤ v ∧ v < s'.valueCount ∧
    (s'.values v).data = o
  new : ∀ v, s.valueCount ≤ v → v < s'.valueCount → (s'.values v).data ∈ os ∧
    s'.values v = ⟨(s.objects (s'.values v).data).argc, (s'.values v).data,
      (s.objects (s'.values v).data).block, false, 0⟩
  latest : os.Nodup → ∀ v, s.valueCount ≤ v → v < s'.valueCount →
    (s'.objects (s'.values v).data).cValue = some v

theorem SameObject.refl (f : JSFunction) : SameObject f f := ⟨rfl, rfl, rfl, rfl⟩

theorem SameObject.trans {f g h : JSFunction} (hfg : SameObject f g) (hgh : SameObject g h) :
    SameObject f h :=
  ⟨hgh.name.trans hfg.name, hgh.argc.trans hfg.argc, hgh.block.trans hfg.block,
    hgh.users.trans hfg.users⟩

theorem SameModule.refl (m : JSModule) : SameModule m m :=
  ⟨rfl, rfl, rfl, rfl, rfl, rfl, rfl, fun _ h => Or.inl h⟩

theorem SameModule.trans {m n l : JSModule} (hmn : SameModule m n) (hnl : SameModule n l) :
    SameModule m l := by
  refine ⟨hnl.properties.trans hmn.properties, hnl.resolved.trans hmn.resolved,
    hnl.func_created.trans hmn.func_created, hnl.loaded.trans hmn.loaded, hnl.live.trans hmn.live, hnl.registered.trans hmn.registered,
    hnl.users.trans hmn.users, ?_⟩
  intro me hme
  rcases hnl.entries me hme with h | h
  · exact hmn.entries me h
  · exact Or.inr h

theorem Builds.refl (s : State) : Builds s s [] := by
  refine ⟨rfl, rfl, rfl, fun o => .refl _, fun i => .refl _, le_rfl, fun _ _ => rfl, fun _ _ => rfl,
    fun o h => absurd h List.not_mem_nil, ?_, ?_⟩
  · intro v h h'
    omega
  · intro _ v h h'
    omega

theorem sameModule_addModuleExport (m : JSModule) (interned : AtomTable) (name : List UInt8) :
    SameModule m { m with
      export_entries := (JS_AddModuleExport interned m.export_entries name).1 } := by
  refine ⟨rfl, rfl, rfl, rfl, rfl, rfl, rfl, ?_⟩
  intro me hme
  dsimp only at hme
  rw [JS_AddModuleExport_eq] at hme
  cases hatom : JS_NewAtom interned name with
  | none =>
    rw [hatom] at hme
    exact Or.inl hme
  | some a =>
    rw [hatom] at hme
    dsimp only at hme
    split_ifs at hme
    · exact Or.inl hme
    · rcases List.mem_append.mp hme with h | h
      · exact Or.inl h
      · exact Or.inr (by rw [List.mem_singleton.mp h]; rfl)

theorem builds_buildFunction (s : State) (o : ℕ) : Builds s (s.buildFunction o) [o] := by
  have hvalue : (s.buildFunction o).values s.valueCount
      = ⟨(s.objects o).argc, o, (s.objects o).block, false, 0⟩ := Function.update_self _ _ _
  have hobject : ((s.buildFunction o).objects o).cValue = some s.valueCount :=
    congrArg JSFunction.cValue (Function.update_self o _ s.objects)
  have hlast : ∀ v, s.valueCount ≤ v → v < (s.buildFunction o).valueCount → v = s.valueCount := by
    intro v hge hlt
    change v < s.valueCount + 1 at hlt
    omega
  refine ⟨rfl, rfl, rfl, ?_, fun i => .refl _, Nat.le_succ _, ?_, ?_, ?_, ?_, ?_⟩
  · intro o'
    unfold State.buildFunction State.setValue State.setObject
    dsimp only
    by_cases h : o' = o
    · rw [h, Function.update_self]
      exact ⟨rfl, rfl, rfl, rfl⟩
    · rw [Function.update_of_ne h]
      exact .refl _
  · intro v hv
    exact Function.update_of_ne (Nat.ne_of_lt hv) _ _
  · intro o' ho'
    have hne : o' ≠ o := fun h => ho' (List.mem_singleton.mpr h)
    exact congrArg JSFunction.cValue (Function.update_of_ne hne _ _)
  · intro o' ho'
    rw [List.mem_singleton.mp ho']
    exact ⟨s.valueCount, hobject, le_rfl, Nat.lt_succ_self _, by rw [hvalue]⟩
  · intro v hge hlt
    rw [hlast v hge hlt, hvalue]
    exact ⟨List.mem_singleton.mpr rfl, rfl⟩
  · intro _ v hge hlt
    rw [hlast v hge hlt, hvalue]
    exact hobject

theorem builds_addExport (s : State) (i : ℕ) (hlive : (s.modules i).live = true)
    (interned : AtomTable) (name : List Char) : Builds s (s.addExport i interned name) [] := by
  unfold State.addExport
  rw [if_pos hlive]
  refine { Builds.refl s with modules := ?_ }
  intro i'
  unfold State.setModule
  dsimp only
  by_cases h : i' = i
  · rw [h, Function.update_self]
    exact sameModule_addModuleExport _ _ _
  · rw [Function.update_of_ne h]
    exact .refl _

theorem Builds.append {s s' s'' : State} {os os' : List ℕ} (h : Builds s s' os)
    (h' : Builds s' s'' os') : Builds s s'' (os ++ os') := by
  refine ⟨h'.objectCount.trans h.objectCount, h'.moduleCount.trans h.moduleCount,
    h'.crashed.trans h.crashed, fun o => (h.objects o).trans (h'.objects o),
    fun i => (h.modules i).trans (h'.modules i), h.valueCount.trans h'.valueCount, ?_, ?_, ?_, ?_,
    ?_⟩
  · intro v hv
    rw [h'.old v (Nat.lt_of_lt_of_le hv h.valueCount), h.old v hv]
  · intro o ho
    rw [List.mem_append, not_or] at ho
    rw [h'.other o ho.2, h.other o ho.1]
  · intro o ho
    by_cases hmem : o ∈ os'
    · obtain ⟨v, hv, hge, hlt, hdata⟩ := h'.current o hmem
      exact ⟨v, hv, h.valueCount.trans hge, hlt, hdata⟩
    · rcases List.mem_append.mp ho with hos | hos
      · obtain ⟨v, hv, hge, hlt, hdata⟩ := h.current o hos
        refine ⟨v, (h'.other o hmem).trans hv, hge, Nat.lt_of_lt_of_le hlt h'.valueCount, ?_⟩
        rw [h'.old v hlt, hdata]
      · exact absurd hos hmem
  · intro v hge hlt
    rcases Nat.lt_or_ge v s'.valueCount with hv | hv
    · rw [h'.old v hv]
      obtain ⟨hmem, heq⟩ := h.new v hge hv
      exact ⟨List.mem_append_left _ hmem, heq⟩
    · obtain ⟨hmem, heq⟩ := h'.new v hv hlt
      refine ⟨List.mem_append_right _ hmem, heq.trans ?_⟩
      rw [(h.objects _).argc, (h.objects _).block]
  · intro hnodup v hge hlt
    rw [List.nodup_append] at hnodup
    rcases Nat.lt_or_ge v s'.valueCount with hv | hv
    · -- Built first: nothing after it builds the same object.
      have hmem := (h.new v hge hv).1
      rw [h'.old v hv, h'.other _ (fun hos' => hnodup.2.2 _ hmem _ hos' rfl)]
      exact h.latest hnodup.1 v hge hv
    · exact h'.latest hnodup.2.1 v hv hlt

/-- Building all properties of a module. -/
theorem builds_foldl (kvs : Dictionary ℕ) (s : State) (i : ℕ)
    (hlive : (s.modules i).live = true) (interned : AtomTable) :
    Builds s (kvs.foldl (fun s kv => (s.buildFunction kv.2).addExport i interned kv.1) s)
      (kvs.map Prod.snd) := by
  induction kvs generalizing s with
  | nil => exact .refl s
  | cons kv kvs ih =>
    have hone : Builds s ((s.buildFunction kv.2).addExport i interned kv.1) [kv.2] :=
      (builds_buildFunction s kv.2).append (builds_addExport (s.buildFunction kv.2) i hlive interned kv.1)
    exact hone.append (ih _ ((hone.modules i).live.trans hlive))

/-! ## What `load()` leaves -/

/-- Setting the export does not dereference a null variable. -/
def settable (interned : AtomTable) (entries : List JSExportEntry) (name : List Char) : Bool :=
  match JS_SetModuleExport interned entries (utf8 name) .undefined with
  | .nullDereference => false
  | _ => true

theorem settable_iff (interned : AtomTable) (entries : List JSExportEntry) (name : List Char) :
    settable interned entries name = true ↔
      ∀ a, JS_NewAtom interned (utf8 name) = some a → a ∈ names entries → cell entries a ≠ none := by
  unfold settable JS_SetModuleExport
  cases JS_NewAtom interned (utf8 name) with
  | none => simp
  | some a =>
    dsimp only
    cases hfind : find_export_entry entries a with
    | none =>
      refine iff_of_true rfl ?_
      intro a' ha' hmem
      rw [Option.some_inj] at ha'
      exact absurd (ha' ▸ hmem) (find_export_entry_eq_none.mp hfind)
    | some me =>
      have hcell : cell entries a = me.var_ref := by rw [cell, hfind, Option.bind_some]
      have hmem : a ∈ names entries := by
        by_contra hnot
        rw [find_export_entry_eq_none.mpr hnot] at hfind
        exact absurd hfind (by simp)
      dsimp only
      cases hvar : me.var_ref with
      | none =>
        refine iff_of_false (by simp) ?_
        intro hall
        exact hall a rfl hmem (hcell.trans hvar)
      | some c =>
        refine iff_of_true rfl ?_
        intro a' ha' _
        rw [Option.some_inj] at ha'
        rw [← ha', hcell, hvar]
        simp

/-- A cell that is set stays a cell, and no other one appears. -/
theorem settable_setCell (interned : AtomTable) (entries : List JSExportEntry) (a : List UInt16)
    (c : Content) (name : List Char) (ha : cell entries a ≠ none) :
    settable interned (setCell entries a c) name = settable interned entries name := by
  rw [Bool.eq_iff_iff, settable_iff, settable_iff, names_setCell]
  have hnone : ∀ b, cell (setCell entries a c) b ≠ none ↔ cell entries b ≠ none := by
    intro b
    rw [cell_setCell]
    split_ifs with h
    · refine iff_of_true (by simp) ?_
      rw [h.1]
      exact ha
    · exact Iff.rfl
  simp only [hnone]

/-- What is in an entry after a cell has been set. -/
theorem mem_setCell {entries : List JSExportEntry} {a : List UInt16} {c : Content}
    {me : JSExportEntry} (h : me ∈ setCell entries a c) : me ∈ entries ∨ me.var_ref = some c := by
  induction entries with
  | nil => exact absurd h List.not_mem_nil
  | cons me' entries ih =>
    rw [setCell] at h
    split_ifs at h
    · rcases List.mem_cons.mp h with h | h
      · exact Or.inr (by rw [h]; rfl)
      · exact Or.inl (List.mem_cons_of_mem _ h)
    · rcases List.mem_cons.mp h with h | h
      · exact Or.inl (by rw [h]; exact List.mem_cons_self)
      · rcases ih h with h | h
        · exact Or.inl (List.mem_cons_of_mem _ h)
        · exact Or.inr h

/-- What `setExport` calls for the properties `kvs` of module `i` leave: the entries of
the module change, and every value is handed over as often as it is among the
properties, unless a call crashed. -/
structure HandsOver (s s' : State) (i : ℕ) (interned : AtomTable) (kvs : Dictionary ℕ) : Prop where
  objects : s'.objects = s.objects
  objectCount : s'.objectCount = s.objectCount
  valueCount : s'.valueCount = s.valueCount
  moduleCount : s'.moduleCount = s.moduleCount
  modules : ∀ j, ∃ entries, s'.modules j = { s.modules j with export_entries := entries } ∧
    (j ≠ i → entries = (s.modules j).export_entries)
  settable : ∀ name, settable interned (s'.modules i).export_entries name
    = settable interned (s.modules i).export_entries name
  entries : ∀ me ∈ (s'.modules i).export_entries, me ∈ (s.modules i).export_entries ∨
    ∃ kv ∈ kvs, me.var_ref = some (s.jsValue kv.2)
  crashed : s'.crashed = (s.crashed ||
    kvs.any (fun kv => !Session.settable interned (s.modules i).export_entries kv.1))
  values : ∀ v, ∃ n, s'.values v = { s.values v with handovers := n } ∧
    ((kvs.all fun kv => Session.settable interned (s.modules i).export_entries kv.1) = true →
      n = (s.values v).handovers + kvs.countP (fun kv => (s.objects kv.2).cValue = some v))

theorem handsOver_nil (s : State) (i : ℕ) (interned : AtomTable) :
    HandsOver s s i interned [] := by
  refine ⟨rfl, rfl, rfl, rfl, fun j => ⟨_, rfl, fun _ => rfl⟩, fun _ => rfl, fun me h => Or.inl h, ?_,
    fun v => ⟨_, rfl, fun _ => rfl⟩⟩
  simp

/-- The three ways a `JS_SetModuleExport` ends. -/
theorem JS_SetModuleExport_cases (interned : AtomTable) (entries : List JSExportEntry)
    (name : List Char) (c : Content) :
    (JS_SetModuleExport interned entries (utf8 name) c = .nullDereference ∧
        settable interned entries name = false) ∨
      (JS_SetModuleExport interned entries (utf8 name) c = .freed ∧
        settable interned entries name = true) ∨
      ∃ a, JS_SetModuleExport interned entries (utf8 name) c = .stored (setCell entries a c) ∧
        cell entries a ≠ none ∧ settable interned entries name = true := by
  unfold settable JS_SetModuleExport
  cases JS_NewAtom interned (utf8 name) with
  | none => exact Or.inr (Or.inl ⟨rfl, rfl⟩)
  | some a =>
    dsimp only
    cases hfind : find_export_entry entries a with
    | none => exact Or.inr (Or.inl ⟨rfl, rfl⟩)
    | some me =>
      dsimp only
      cases hvar : me.var_ref with
      | none => exact Or.inl ⟨rfl, rfl⟩
      | some c' =>
        refine Or.inr (Or.inr ⟨a, rfl, ?_, rfl⟩)
        rw [cell, hfind, Option.bind_some, hvar]
        simp

/-- Handing over changes one count. -/
theorem values_handOver (s : State) (o v : ℕ) :
    (s.handOver o).values v = { s.values v with
      handovers := (s.values v).handovers + if (s.objects o).cValue = some v then 1 else 0 } := by
  unfold State.handOver
  cases hv : (s.objects o).cValue with
  | none =>
    rw [if_neg (by simp)]
    rfl
  | some v' =>
    dsimp only
    unfold State.setValue
    dsimp only
    by_cases h : v = v'
    · rw [h, Function.update_self, if_pos rfl]
    · rw [Function.update_of_ne h, if_neg (fun heq => h (Option.some_inj.mp heq).symm)]
      rfl

theorem handOver_frame (s : State) (o : ℕ) :
    (s.handOver o).objects = s.objects ∧ (s.handOver o).objectCount = s.objectCount ∧
      (s.handOver o).valueCount = s.valueCount ∧ (s.handOver o).modules = s.modules ∧
      (s.handOver o).moduleCount = s.moduleCount ∧ (s.handOver o).crashed = s.crashed := by
  unfold State.handOver
  cases (s.objects o).cValue <;> exact ⟨rfl, rfl, rfl, rfl, rfl, rfl⟩

theorem handsOver_one (s : State) (i : ℕ) (interned : AtomTable) (kv : List Char × ℕ) :
    HandsOver s (s.setExport i interned kv) i interned [kv] := by
  unfold State.setExport
  rcases JS_SetModuleExport_cases interned (s.modules i).export_entries kv.1 (s.jsValue kv.2) with
    ⟨heq, hset⟩ | ⟨heq, hset⟩ | ⟨a, heq, ha, hset⟩
  · -- The variable is null: nothing is handed over.
    rw [heq]
    refine ⟨rfl, rfl, rfl, rfl, fun j => ⟨_, rfl, fun _ => rfl⟩, fun _ => rfl, fun me h => Or.inl h,
      ?_, fun v => ⟨_, rfl, fun h => ?_⟩⟩
    · simp [hset]
    · simp [hset] at h
  · -- There is no such entry: the value is freed.
    rw [heq]
    obtain ⟨hobj, hoc, hvc, hmod, hmc, hcr⟩ := handOver_frame s kv.2
    refine ⟨hobj, hoc, hvc, hmc, fun j => ⟨_, by rw [hmod], fun _ => rfl⟩, by rw [hmod]; simp,
      fun me h => Or.inl (by rwa [hmod] at h), ?_, fun v => ⟨_, values_handOver s kv.2 v, ?_⟩⟩
    · rw [hcr]
      simp [hset]
    · intro _
      simp [List.countP_cons]
  · -- The value is moved into the variable.
    rw [heq]
    dsimp only
    set t := s.setModule i (fun m => { m with
      export_entries := setCell (s.modules i).export_entries a (s.jsValue kv.2) }) with ht
    obtain ⟨hobj, hoc, hvc, hmod, hmc, hcr⟩ := handOver_frame t kv.2
    have hi : (t.modules i).export_entries
        = setCell (s.modules i).export_entries a (s.jsValue kv.2) :=
      congrArg JSModule.export_entries (Function.update_self i _ s.modules)
    refine ⟨hobj, hoc, hvc, hmc, ?_, ?_, ?_, ?_, fun v => ⟨_, values_handOver t kv.2 v, ?_⟩⟩
    · intro j
      rw [hmod]
      by_cases h : j = i
      · subst h
        exact ⟨_, Function.update_self j _ s.modules, fun hne => absurd rfl hne⟩
      · exact ⟨_, Function.update_of_ne h _ _, fun _ => rfl⟩
    · intro name
      rw [hmod, hi, settable_setCell _ _ _ _ _ ha]
    · intro me hme
      rw [hmod, hi] at hme
      rcases mem_setCell hme with h | h
      · exact Or.inl h
      · exact Or.inr ⟨kv, List.mem_singleton.mpr rfl, h⟩
    · rw [hcr]
      simp [hset, ht, State.setModule]
    · intro _
      simp [List.countP_cons, ht, State.setModule]

theorem HandsOver.append {s s' s'' : State} {i : ℕ} {interned : AtomTable}
    {kvs kvs' : Dictionary ℕ} (h : HandsOver s s' i interned kvs)
    (h' : HandsOver s' s'' i interned kvs') : HandsOver s s'' i interned (kvs ++ kvs') := by
  have hval : ∀ o, s'.jsValue o = s.jsValue o := by
    intro o
    unfold State.jsValue
    rw [h.objects]
  refine ⟨h'.objects.trans h.objects, h'.objectCount.trans h.objectCount,
    h'.valueCount.trans h.valueCount, h'.moduleCount.trans h.moduleCount, ?_,
    fun name => (h'.settable name).trans (h.settable name), ?_, ?_, ?_⟩
  · intro j
    obtain ⟨e, he, hne⟩ := h.modules j
    obtain ⟨e', he', hne'⟩ := h'.modules j
    refine ⟨e', by rw [he', he], fun hj => ?_⟩
    rw [hne' hj, he]
    exact hne hj
  · intro me hme
    rcases h'.entries me hme with hme | ⟨kv, hkv, hv⟩
    · rcases h.entries me hme with hme | ⟨kv, hkv, hv⟩
      · exact Or.inl hme
      · exact Or.inr ⟨kv, List.mem_append_left _ hkv, hv⟩
    · exact Or.inr ⟨kv, List.mem_append_right _ hkv, by rw [hv, hval]⟩
  · rw [h'.crashed, h.crashed, List.any_append, Bool.or_assoc]
    simp only [h.settable]
  · intro v
    obtain ⟨n, hn, hcount⟩ := h.values v
    obtain ⟨n', hn', hcount'⟩ := h'.values v
    refine ⟨n', by rw [hn', hn], fun hall => ?_⟩
    rw [List.all_append, Bool.and_eq_true] at hall
    rw [hcount' (by simpa only [h.settable] using hall.2), hn, List.countP_append, h.objects]
    dsimp only
    rw [hcount hall.1, Nat.add_assoc]

/-- The `setExport` calls of `load()`. -/
theorem handsOver_foldl (kvs : Dictionary ℕ) (s : State) (i : ℕ) (interned : AtomTable) :
    HandsOver s (kvs.foldl (fun s kv => s.setExport i interned kv) s) i interned kvs := by
  induction kvs generalizing s with
  | nil => exact handsOver_nil s i interned
  | cons kv kvs ih => exact (handsOver_one s i interned kv).append (ih _)

/-! ## What holds in every state -/

/-- Facts that no step can break. Every property has been built, but for those a step has
yet to build; an object's value is a
value of that object, and a value has the block of its object; the keys are the objects'
names; the variables of a module are empty until `load()`; and a live definition has its
module in the registry. -/
structure Coherent (s : State) (unbuilt : List ℕ) : Prop where
  slots : ∀ i, ∀ kv ∈ (s.modules i).properties, kv.2 < s.objectCount ∧
    ((∃ v, (s.objects kv.2).cValue = some v) ∨ kv.2 ∈ unbuilt)
  current : ∀ o v, (s.objects o).cValue = some v → v < s.valueCount ∧ (s.values v).data = o
  origin : ∀ v < s.valueCount, (s.values v).data < s.objectCount ∧
    (s.objects (s.values v).data).block = (s.values v).block
  keys : ∀ i, swift.KeysNodup (s.modules i).properties
  named : ∀ i, ∀ kv ∈ (s.modules i).properties,
    swift.normalize kv.1 = swift.normalize (s.objects kv.2).name
  unread : ∀ i, (s.modules i).loaded = false → ∀ me ∈ (s.modules i).export_entries,
    ∀ v, me.var_ref ≠ some (.function v)
  listed : ∀ i, (s.modules i).live = true → (s.modules i).registered = true
  modulesBeyond : ∀ i, s.moduleCount ≤ i → (s.modules i).held = false ∧ (s.modules i).properties = []
  objectsBeyond : ∀ o, s.objectCount ≤ o → (s.objects o).users = 0 ∧ (s.objects o).cValue = none

variable {swift}

theorem holds_iff (s : State) (o : ℕ) :
    s.holds o = true ↔ 0 < (s.objects o).users ∨
      ∃ i < s.moduleCount, (s.modules i).held = true ∧ ∃ kv ∈ (s.modules i).properties, kv.2 = o := by
  unfold State.holds
  rw [Bool.or_eq_true, decide_eq_true_iff, List.any_eq_true]
  simp only [List.mem_range, Bool.and_eq_true, List.any_eq_true, decide_eq_true_eq]

theorem coherent_empty : Coherent swift State.empty [] := by
  refine ⟨?_, ?_, ?_, fun i => List.nodup_nil, ?_, ?_, ?_, ?_, ?_⟩
  · intro i kv hkv
    exact absurd hkv List.not_mem_nil
  · intro o v hv
    exact absurd hv (fun h => nomatch h)
  · intro v hv
    exact absurd hv (Nat.not_lt_zero v)
  · intro i kv hkv
    exact absurd hkv List.not_mem_nil
  · intro i _ me hme
    exact absurd hme List.not_mem_nil
  · intro i hlive
    exact absurd hlive (fun h => nomatch h)
  · intro i _
    exact ⟨rfl, rfl⟩
  · intro o _
    exact ⟨rfl, rfl⟩

/-- Building what is unbuilt. -/
theorem Coherent.builds {s s' : State} {os : List ℕ} (h : Coherent swift s os)
    (hb : Builds s s' os) (hos : ∀ o ∈ os, o < s.objectCount) : Coherent swift s' [] := by
  refine ⟨?_, ?_, ?_, ?_, ?_, ?_, ?_, ?_, ?_⟩
  · intro i kv hkv
    rw [(hb.modules i).properties] at hkv
    obtain ⟨hlt, hbuilt⟩ := h.slots i kv hkv
    refine ⟨hlt.trans_eq hb.objectCount.symm, Or.inl ?_⟩
    by_cases hmem : kv.2 ∈ os
    · obtain ⟨v, hv, -⟩ := hb.current kv.2 hmem
      exact ⟨v, hv⟩
    · rw [hb.other _ hmem]
      exact hbuilt.resolve_right hmem
  · intro o v hv
    by_cases hmem : o ∈ os
    · obtain ⟨v', hv', -, hlt, hdata⟩ := hb.current o hmem
      rw [hv', Option.some_inj] at hv
      rw [← hv]
      exact ⟨hlt, hdata⟩
    · rw [hb.other o hmem] at hv
      obtain ⟨hlt, hdata⟩ := h.current o v hv
      exact ⟨Nat.lt_of_lt_of_le hlt hb.valueCount, by rw [hb.old v hlt, hdata]⟩
  · intro v hlt
    rw [hb.objectCount, (hb.objects _).block]
    rcases Nat.lt_or_ge v s.valueCount with hv | hv
    · rw [hb.old v hv]
      exact h.origin v hv
    · obtain ⟨hmem, heq⟩ := hb.new v hv hlt
      refine ⟨hos _ hmem, ?_⟩
      rw [heq]
  · intro i
    rw [(hb.modules i).properties]
    exact h.keys i
  · intro i kv hkv
    rw [(hb.modules i).properties] at hkv
    rw [(hb.objects _).name]
    exact h.named i kv hkv
  · intro i hl me hme v hv
    rw [(hb.modules i).loaded] at hl
    rcases (hb.modules i).entries me hme with hold | hnone
    · exact h.unread i hl me hold v hv
    · rw [hnone] at hv
      exact absurd hv (by simp)
  · intro i hl
    rw [(hb.modules i).live] at hl
    rw [(hb.modules i).registered]
    exact h.listed i hl
  · intro i hi
    rw [hb.moduleCount] at hi
    obtain ⟨hheld, hprops⟩ := h.modulesBeyond i hi
    refine ⟨?_, (hb.modules i).properties.trans hprops⟩
    unfold JSModule.held at hheld ⊢
    rw [(hb.modules i).registered, (hb.modules i).users]
    exact hheld
  · intro o ho
    rw [hb.objectCount] at ho
    have hmem : o ∉ os := fun hmem => absurd (hos o hmem) (Nat.not_lt.mpr ho)
    rw [(hb.objects o).users, hb.other o hmem]
    exact h.objectsBeyond o ho

/-- Changing modules without touching their properties, and without writing functions into
their variables. -/
theorem Coherent.setModules {s : State} {os : List ℕ} (h : Coherent swift s os)
    {modules : ℕ → JSModule} (hprops : ∀ i, (modules i).properties = (s.modules i).properties)
    (hloaded : ∀ i, (modules i).loaded = false → (s.modules i).loaded = false)
    (hentries : ∀ i, (modules i).loaded = false → ∀ me ∈ (modules i).export_entries, ∀ v,
      me.var_ref = some (.function v) → me ∈ (s.modules i).export_entries)
    (hlive : ∀ i, (modules i).live = true → (modules i).registered = true)
    (hheld : ∀ i, s.moduleCount ≤ i → (modules i).held = false) :
    Coherent swift { s with modules := modules } os := by
  refine ⟨?_, h.current, h.origin, ?_, ?_, ?_, hlive, ?_, h.objectsBeyond⟩
  · intro i kv hkv
    rw [hprops i] at hkv
    exact h.slots i kv hkv
  · intro i
    dsimp only
    rw [hprops i]
    exact h.keys i
  · intro i kv hkv
    rw [hprops i] at hkv
    exact h.named i kv hkv
  · intro i hl me hme v hv
    exact h.unread i (hloaded i hl) me (hentries i hl me hme v hv) v hv
  · intro i hi
    exact ⟨hheld i hi, (hprops i).trans (h.modulesBeyond i hi).2⟩

/-- Changing one module in the same way. -/
theorem Coherent.setModule {s : State} {os : List ℕ} (h : Coherent swift s os) (i : ℕ)
    {f : JSModule → JSModule} (hprops : ∀ m, (f m).properties = m.properties)
    (hloaded : ∀ m, (f m).loaded = m.loaded)
    (hentries : ∀ m, ∀ me ∈ (f m).export_entries, ∀ v, me.var_ref = some (.function v) →
      me ∈ m.export_entries)
    (hlive : (f (s.modules i)).live = true → (f (s.modules i)).registered = true)
    (hheld : s.moduleCount ≤ i → (f (s.modules i)).held = false) :
    Coherent swift (s.setModule i f) os := by
  refine h.setModules ?_ ?_ ?_ ?_ ?_
  · intro j
    by_cases hj : j = i
    · rw [hj, Function.update_self, hprops]
    · rw [Function.update_of_ne hj]
  · intro j hl
    by_cases hj : j = i
    · rw [hj, Function.update_self, hloaded] at hl
      rw [hj, hl]
    · rwa [Function.update_of_ne hj] at hl
  · intro j _ me hme v hv
    by_cases hj : j = i
    · rw [hj, Function.update_self] at hme
      rw [hj]
      exact hentries _ me hme v hv
    · rwa [Function.update_of_ne hj] at hme
  · intro j hl
    by_cases hj : j = i
    · rw [hj, Function.update_self] at hl ⊢
      exact hlive hl
    · rw [Function.update_of_ne hj] at hl ⊢
      exact h.listed j hl
  · intro j hjc
    by_cases hj : j = i
    · rw [hj, Function.update_self]
      exact hheld (hj ▸ hjc)
    · rw [Function.update_of_ne hj]
      exact (h.modulesBeyond j hjc).1

/-- Changing the user's references to an object. -/
theorem Coherent.setUsers {s : State} {os : List ℕ} (h : Coherent swift s os) (o n : ℕ)
    (hn : s.objectCount ≤ o → n = 0) :
    Coherent swift (s.setObject o (fun f => { f with users := n })) os := by
  have hobj : ∀ o', SameObject (s.objects o') { (Function.update s.objects o
        { s.objects o with users := n }) o' with users := (s.objects o').users } ∧
      (Function.update s.objects o { s.objects o with users := n } o').cValue
        = (s.objects o').cValue := by
    intro o'
    by_cases ho : o' = o
    · rw [ho, Function.update_self]
      exact ⟨⟨rfl, rfl, rfl, rfl⟩, rfl⟩
    · rw [Function.update_of_ne ho]
      exact ⟨⟨rfl, rfl, rfl, rfl⟩, rfl⟩
  refine ⟨?_, ?_, ?_, h.keys, ?_, h.unread, h.listed, h.modulesBeyond, ?_⟩
  · intro i kv hkv
    obtain ⟨hlt, hbuilt⟩ := h.slots i kv hkv
    refine ⟨hlt, ?_⟩
    unfold State.setObject
    dsimp only
    rw [(hobj kv.2).2]
    exact hbuilt
  · intro o' v hv
    unfold State.setObject at hv
    dsimp only at hv
    rw [(hobj o').2] at hv
    exact h.current o' v hv
  · intro v hv
    obtain ⟨hlt, hblock⟩ := h.origin v hv
    exact ⟨hlt, (hobj _).1.block.trans hblock⟩
  · intro i kv hkv
    exact (h.named i kv hkv).trans (congrArg swift.normalize (hobj kv.2).1.name.symm)
  · intro o' ho'
    unfold State.setObject
    dsimp only
    rw [(hobj o').2]
    refine ⟨?_, (h.objectsBeyond o' ho').2⟩
    by_cases ho : o' = o
    · rw [ho, Function.update_self]
      exact hn (ho ▸ ho')
    · rw [Function.update_of_ne ho]
      exact (h.objectsBeyond o' ho').1

/-- A new object. -/
theorem Coherent.newObject {s : State} (h : Coherent swift s []) (name : List Char) (argc : ℤ)
    (block users : ℕ) :
    Coherent swift (s.newFunction name argc block users) [] := by
  have hobj : ∀ o < s.objectCount, Function.update s.objects s.objectCount
      ⟨name, argc, block, none, users⟩ o = s.objects o :=
    fun o ho => Function.update_of_ne (Nat.ne_of_lt ho) _ _
  unfold State.newFunction State.setObject
  refine ⟨?_, ?_, ?_, h.keys, ?_, h.unread, h.listed, h.modulesBeyond, ?_⟩
  · intro i kv hkv
    obtain ⟨hlt, hbuilt⟩ := h.slots i kv hkv
    dsimp only
    rw [hobj _ hlt]
    exact ⟨Nat.lt_succ_of_lt hlt, hbuilt⟩
  · intro o v hv
    dsimp only at hv
    by_cases ho : o = s.objectCount
    · rw [ho, Function.update_self] at hv
      exact absurd hv (by simp)
    · rw [Function.update_of_ne ho] at hv
      exact h.current o v hv
  · intro v hv
    obtain ⟨hlt, hblock⟩ := h.origin v hv
    dsimp only
    rw [hobj _ hlt]
    exact ⟨Nat.lt_succ_of_lt hlt, hblock⟩
  · intro i kv hkv
    dsimp only
    rw [hobj _ (h.slots i kv hkv).1]
    exact h.named i kv hkv
  · intro o ho
    dsimp only at ho ⊢
    rw [Function.update_of_ne (by omega)]
    exact h.objectsBeyond o (by omega)

/-- The properties of a new module are objects the user holds, under their names. -/
theorem builderProperties_spec (s : State) (children : List ℕ) :
    swift.KeysNodup (s.builderProperties swift children) ∧
      ∀ kv ∈ s.builderProperties swift children, kv.2 < s.objectCount ∧
        0 < (s.objects kv.2).users ∧
        swift.normalize kv.1 = swift.normalize (s.objects kv.2).name := by
  obtain ⟨hkeys, hmem⟩ := @Stdlib.foldl_set_spec ℕ swift (fun o => (s.objects o).name)
    (children.filter (fun o => decide (o < s.objectCount) && decide (0 < (s.objects o).users)))
  refine ⟨hkeys, fun kv hkv => ?_⟩
  obtain ⟨hin, hname⟩ := hmem kv hkv
  have hfilter := (List.mem_filter.mp hin).2
  rw [Bool.and_eq_true, decide_eq_true_iff, decide_eq_true_iff] at hfilter
  exact ⟨hfilter.1, hfilter.2, hname⟩

/-- An object has one name, so it is at most once in a module. -/
theorem nodup_objects {s : State} {d : Dictionary ℕ} (hkeys : swift.KeysNodup d)
    (hnamed : ∀ kv ∈ d, swift.normalize kv.1 = swift.normalize (s.objects kv.2).name) :
    (d.map Prod.snd).Nodup := by
  unfold Stdlib.KeysNodup at hkeys
  have heq : d.map (fun kv => swift.normalize kv.1)
      = (d.map Prod.snd).map (fun o => swift.normalize (s.objects o).name) := by
    rw [List.map_map]
    exact List.map_congr_left hnamed
  rw [heq] at hkeys
  exact hkeys.of_map _

theorem newModule_self (s : State) (d : Dictionary ℕ) :
    (s.newModule d).modules s.moduleCount = ⟨d, [], false, false, false, true, true, 1⟩ :=
  Function.update_self _ _ _

theorem newModule_of_ne {s : State} {d : Dictionary ℕ} {i : ℕ} (hi : i ≠ s.moduleCount) :
    (s.newModule d).modules i = s.modules i :=
  Function.update_of_ne hi _ _

/-- Registering a module builds its properties. -/
theorem builds_module (s : State) (interned : AtomTable) (children : List ℕ) :
    Builds (s.newModule (s.builderProperties swift children)) (s.module swift interned children)
      ((swift.order (s.builderProperties swift children)).map Prod.snd) := by
  apply builds_foldl
  exact congrArg JSModule.live (Function.update_self s.moduleCount _ s.modules)

theorem coherent_module {s : State} (h : Coherent swift s []) (interned : AtomTable)
    (children : List ℕ) : Coherent swift (s.module swift interned children) [] := by
  obtain ⟨hkeys, hmem⟩ := @builderProperties_spec swift s children
  have horder := swift.order_perm (s.builderProperties swift children)
  apply Coherent.builds _ (builds_module s interned children)
  · intro o ho
    obtain ⟨kv, hkv, rfl⟩ := List.mem_map.mp ho
    exact (hmem kv (horder.mem_iff.mp hkv)).1
  -- The new module, whose properties are still to be built.
  refine ⟨?_, h.current, h.origin, ?_, ?_, ?_, ?_, ?_, h.objectsBeyond⟩
  · intro i kv hkv
    by_cases hi : i = s.moduleCount
    · rw [hi, newModule_self] at hkv
      exact ⟨(hmem kv hkv).1, Or.inr (List.mem_map.mpr ⟨kv, horder.mem_iff.mpr hkv, rfl⟩)⟩
    · rw [newModule_of_ne hi] at hkv
      obtain ⟨hlt, hbuilt⟩ := h.slots i kv hkv
      exact ⟨hlt, Or.inl (hbuilt.resolve_right List.not_mem_nil)⟩
  · intro i
    by_cases hi : i = s.moduleCount
    · rw [hi, newModule_self]
      exact hkeys
    · rw [newModule_of_ne hi]
      exact h.keys i
  · intro i kv hkv
    by_cases hi : i = s.moduleCount
    · rw [hi, newModule_self] at hkv
      exact (hmem kv hkv).2.2
    · rw [newModule_of_ne hi] at hkv
      exact h.named i kv hkv
  · intro i hl me hme
    by_cases hi : i = s.moduleCount
    · rw [hi, newModule_self] at hme
      exact absurd hme List.not_mem_nil
    · rw [newModule_of_ne hi] at hl hme
      exact h.unread i hl me hme
  · intro i hl
    by_cases hi : i = s.moduleCount
    · rw [hi, newModule_self]
    · rw [newModule_of_ne hi] at hl ⊢
      exact h.listed i hl
  · intro i hi
    change s.moduleCount + 1 ≤ i at hi
    rw [newModule_of_ne (by omega)]
    exact h.modulesBeyond i (by omega)

/-- Putting an object that has been built into a dictionary, under its name. -/
theorem Coherent.place {s : State} (h : Coherent swift s []) {i o : ℕ} (hi : i < s.moduleCount)
    (ho : o < s.objectCount) (hbuilt : ∃ v, (s.objects o).cValue = some v) {name : List Char}
    (hname : (s.objects o).name = name) :
    Coherent swift (s.setModule i (fun m => { m with
      properties := swift.set m.properties name o })) [] := by
  have hself : ((s.setModule i (fun m => { m with
      properties := swift.set m.properties name o })).modules i)
      = { s.modules i with properties := swift.set (s.modules i).properties name o } :=
    Function.update_self _ _ _
  have hne : ∀ j, j ≠ i → (s.setModule i (fun m => { m with
      properties := swift.set m.properties name o })).modules j = s.modules j :=
    fun j hj => Function.update_of_ne hj _ _
  refine ⟨?_, h.current, h.origin, ?_, ?_, ?_, ?_, ?_, h.objectsBeyond⟩
  · intro j kv hkv
    by_cases hj : j = i
    · rw [hj, hself] at hkv
      rcases Stdlib.mem_set (h.keys i) hkv with ⟨hold, -⟩ | ⟨hnew, -⟩
      · exact h.slots i kv hold
      · rw [hnew]
        exact ⟨ho, Or.inl hbuilt⟩
    · rw [hne j hj] at hkv
      exact h.slots j kv hkv
  · intro j
    by_cases hj : j = i
    · rw [hj, hself]
      exact Stdlib.keysNodup_set (h.keys i) _ _
    · rw [hne j hj]
      exact h.keys j
  · intro j kv hkv
    by_cases hj : j = i
    · rw [hj, hself] at hkv
      rcases Stdlib.mem_set (h.keys i) hkv with ⟨hold, -⟩ | ⟨hnew, hkey⟩
      · exact h.named i kv hold
      · rw [hkey, hnew]
        exact congrArg swift.normalize hname.symm
    · rw [hne j hj] at hkv
      exact h.named j kv hkv
  · intro j hl me hme
    by_cases hj : j = i
    · rw [hj, hself] at hl hme
      exact h.unread i hl me hme
    · rw [hne j hj] at hl hme
      exact h.unread j hl me hme
  · intro j hl
    by_cases hj : j = i
    · rw [hj, hself] at hl ⊢
      exact h.listed i hl
    · rw [hne j hj] at hl ⊢
      exact h.listed j hl
  · intro j hjc
    rw [hne j (Nat.ne_of_gt (Nat.lt_of_lt_of_le hi hjc))]
    exact h.modulesBeyond j hjc

theorem placeFunction_self (s : State) (i : ℕ) (name : List Char) (argc : ℤ) (block : ℕ) :
    (s.placeFunction swift i name argc block).modules i = { s.modules i with
      properties := swift.set (s.modules i).properties name s.objectCount } :=
  Function.update_self _ _ _

theorem placeFunction_of_ne {s : State} {i j : ℕ} (hj : j ≠ i) (name : List Char) (argc : ℤ)
    (block : ℕ) : (s.placeFunction swift i name argc block).modules j = s.modules j :=
  Function.update_of_ne hj _ _

theorem values_addExport (s : State) (i : ℕ) (interned : AtomTable) (name : List Char) :
    (s.addExport i interned name).values = s.values ∧
      (s.addExport i interned name).valueCount = s.valueCount := by
  unfold State.addExport
  split_ifs <;> exact ⟨rfl, rfl⟩

theorem unregister_frame (s : State) (reuses : Option ℕ) :
    (s.unregister reuses).values = s.values ∧ (s.unregister reuses).valueCount = s.valueCount ∧
      (s.unregister reuses).crashed = s.crashed := by
  cases reuses with
  | none => exact ⟨rfl, rfl, rfl⟩
  | some i =>
    rw [State.unregister]
    split_ifs <;> exact ⟨rfl, rfl, rfl⟩

theorem coherent_placeFunction {s : State} (h : Coherent swift s []) {i : ℕ}
    (hi : i < s.moduleCount) (name : List Char) (argc : ℤ) (block : ℕ) :
    Coherent swift (s.placeFunction swift i name argc block) [] := by
  have hb := builds_buildFunction (s.newFunction name argc block 0) s.objectCount
  have hnew : Coherent swift (s.newFunction name argc block 0) [] := h.newObject name argc block 0
  have hcount : (s.newFunction name argc block 0).objectCount = s.objectCount + 1 := rfl
  have hbuilt : Coherent swift ((s.newFunction name argc block 0).buildFunction s.objectCount) [] := by
    refine Coherent.builds ?_ hb ?_
    · exact { hnew with slots := fun j kv hkv =>
        ⟨(hnew.slots j kv hkv).1, Or.inl ((hnew.slots j kv hkv).2.resolve_right
          List.not_mem_nil)⟩ }
    · intro o ho
      rw [List.mem_singleton.mp ho, hcount]
      exact Nat.lt_succ_self _
  apply hbuilt.place hi
  · rw [hb.objectCount, hcount]
    exact Nat.lt_succ_self _
  · obtain ⟨v, hv, -⟩ := hb.current s.objectCount (List.mem_singleton.mpr rfl)
    exact ⟨v, hv⟩
  · rw [(hb.objects s.objectCount).name]
    exact congrArg JSFunction.name (Function.update_self s.objectCount _ s.objects)

theorem coherent_function {s : State} (h : Coherent swift s []) {i : ℕ}
    (hi : i < s.moduleCount) (interned : AtomTable) (name : List Char) (argc : ℤ) (block : ℕ) :
    Coherent swift (s.function swift i interned name argc block) [] := by
  unfold State.function
  have hplaced := coherent_placeFunction h hi name argc block
  by_cases hlive : ((s.placeFunction swift i name argc block).modules i).live = true
  · exact hplaced.builds (builds_addExport _ i hlive interned name) (by simp)
  · unfold State.addExport
    rw [if_neg hlive]
    exact { hplaced with }

/-- What `load()` leaves, with the entries and counts of its `setExport` calls. -/
structure Loads (s s' : State) (i : ℕ) (interned : AtomTable) (kvs : Dictionary ℕ) : Prop where
  objects : s'.objects = s.objects
  objectCount : s'.objectCount = s.objectCount
  valueCount : s'.valueCount = s.valueCount
  moduleCount : s'.moduleCount = s.moduleCount
  other : ∀ j, j ≠ i → s'.modules j = s.modules j
  loaded : ∃ entries, s'.modules i = { s.modules i with export_entries := entries, loaded := true }
  crashed : s'.crashed = (s.crashed ||
    kvs.any (fun kv => !settable interned (s.modules i).export_entries kv.1))
  values : ∀ v, ∃ b n, s'.values v = { s.values v with exported := b, handovers := n } ∧
    ((s.values v).exported = true → b = true) ∧
    (b = true → (s.values v).exported = true ∨
      (∃ me ∈ (s.modules i).export_entries, me.var_ref = some (.function v)) ∨
      ∃ kv ∈ kvs, (s.objects kv.2).cValue = some v) ∧
    ((kvs.all fun kv => settable interned (s.modules i).export_entries kv.1) = true →
      n = (s.values v).handovers + kvs.countP (fun kv => (s.objects kv.2).cValue = some v))

theorem loads_load (s : State) (i : ℕ) (interned : AtomTable) :
    Loads s (s.load swift i interned) i interned (swift.order (s.modules i).properties) := by
  have hh := handsOver_foldl (swift.order (s.modules i).properties) s i interned
  unfold State.load
  set t := (swift.order (s.modules i).properties).foldl (fun s kv => s.setExport i interned kv) s
    with ht
  refine ⟨hh.objects, hh.objectCount, hh.valueCount, hh.moduleCount, ?_, ?_, hh.crashed, ?_⟩
  · intro j hj
    obtain ⟨e, he, hne⟩ := hh.modules j
    refine (Function.update_of_ne hj _ _).trans ?_
    rw [he, hne hj]
  · obtain ⟨e, he, -⟩ := hh.modules i
    refine ⟨e, (Function.update_self i _ t.modules).trans ?_⟩
    rw [he]
  · intro v
    obtain ⟨n, hn, hcount⟩ := hh.values v
    refine ⟨(t.values v).exported || (t.modules i).exports v, n, ?_, ?_, ?_, hcount⟩
    · dsimp only
      rw [hn]
    · intro hb
      rw [hn]
      simp [hb]
    · intro hb
      rw [Bool.or_eq_true, hn] at hb
      refine hb.imp id fun hexp => ?_
      -- What is in a variable was there before, or is a property's value.
      obtain ⟨me, hme, hvar⟩ := List.any_eq_true.mp hexp
      rw [beq_iff_eq] at hvar
      refine (hh.entries me hme).imp (fun hold => ⟨me, hold, hvar⟩) ?_
      rintro ⟨kv, hkv, hval⟩
      refine ⟨kv, hkv, ?_⟩
      rw [hvar, Option.some_inj] at hval
      unfold State.jsValue at hval
      cases hc : (s.objects kv.2).cValue with
      | none =>
        rw [hc] at hval
        exact absurd hval (by simp)
      | some v' =>
        rw [hc] at hval
        injection hval with hval
        rw [hval]

theorem coherent_load {s : State} (h : Coherent swift s []) (i : ℕ) (interned : AtomTable) :
    Coherent swift (s.load swift i interned) [] := by
  have hl := @loads_load swift s i interned
  obtain ⟨e, hi⟩ := hl.loaded
  have hsame : ∀ j, ((s.load swift i interned).modules j).properties = (s.modules j).properties ∧
      ((s.load swift i interned).modules j).live = (s.modules j).live ∧
      ((s.load swift i interned).modules j).registered = (s.modules j).registered ∧
      ((s.load swift i interned).modules j).held = (s.modules j).held := by
    intro j
    by_cases hj : j = i
    · rw [hj, hi]
      exact ⟨rfl, rfl, rfl, rfl⟩
    · rw [hl.other j hj]
      exact ⟨rfl, rfl, rfl, rfl⟩
  have hdata : ∀ v, ((s.load swift i interned).values v).data = (s.values v).data ∧
      ((s.load swift i interned).values v).block = (s.values v).block := by
    intro v
    obtain ⟨b, n, hv, -⟩ := hl.values v
    rw [hv]
    exact ⟨rfl, rfl⟩
  refine ⟨?_, ?_, ?_, ?_, ?_, ?_, ?_, ?_, ?_⟩
  · intro j kv hkv
    rw [(hsame j).1] at hkv
    rw [hl.objects, hl.objectCount]
    exact h.slots j kv hkv
  · intro o v hv
    rw [hl.objects] at hv
    rw [hl.valueCount, (hdata v).1]
    exact h.current o v hv
  · intro v hv
    rw [hl.valueCount] at hv
    rw [(hdata v).1, (hdata v).2, hl.objects, hl.objectCount]
    exact h.origin v hv
  · intro j
    rw [(hsame j).1]
    exact h.keys j
  · intro j kv hkv
    rw [(hsame j).1] at hkv
    rw [hl.objects]
    exact h.named j kv hkv
  · intro j hload me hme
    by_cases hj : j = i
    · rw [hj, hi] at hload
      exact absurd hload (by simp)
    · rw [hl.other j hj] at hload hme
      exact h.unread j hload me hme
  · intro j hlive
    rw [(hsame j).2.1] at hlive
    rw [(hsame j).2.2.1]
    exact h.listed j hlive
  · intro j hj
    rw [hl.moduleCount] at hj
    rw [(hsame j).1, (hsame j).2.2.2]
    exact h.modulesBeyond j hj
  · intro o ho
    rw [hl.objectCount] at ho
    rw [hl.objects]
    exact h.objectsBeyond o ho

/-- A registered module that is not live can be forgotten. -/
theorem coherent_unregister {s : State} (h : Coherent swift s []) (reuses : Option ℕ) :
    Coherent swift (s.unregister reuses) [] := by
  cases reuses with
  | none => exact h
  | some i =>
    rw [State.unregister]
    split_ifs with hlive
    · exact h
    · refine h.setModule i (fun _ => rfl) (fun _ => rfl) (fun _ _ hme _ _ => hme)
        (fun hl => absurd hl hlive) ?_
      intro hi
      have := (h.modulesBeyond i hi).1
      unfold JSModule.held at this ⊢
      rw [Bool.or_eq_false_iff] at this
      dsimp only
      rw [this.2]
      rfl

theorem coherent_js_free_modules {s : State} (h : Coherent swift s [])
    (keep : JSModule → Bool) : Coherent swift (s.js_free_modules keep) [] := by
  refine h.setModules (fun _ => rfl) (fun _ hl => hl) (fun _ _ _ hme _ _ => hme) ?_
    (fun i hi => (h.modulesBeyond i hi).1)
  intro i hl
  rw [Bool.and_eq_true] at hl
  exact h.listed i hl.1

/-- Only what exists is held. -/
theorem Coherent.lt_of_holds {s : State} (h : Coherent swift s []) {o : ℕ}
    (ho : s.holds o = true) : o < s.objectCount := by
  by_contra hge
  rcases (holds_iff s o).mp ho with hu | ⟨i, -, -, kv, hkv, rfl⟩
  · rw [(h.objectsBeyond o (Nat.not_lt.mp hge)).1] at hu
    exact absurd hu (Nat.lt_irrefl 0)
  · exact hge (h.slots i kv hkv).1

/-- **No step** breaks the bookkeeping. -/
theorem coherent_step (s : State) (a : Step) (h : Coherent swift s []) :
    Coherent swift (step swift s a) [] := by
  cases a with
  | newFunction name argc block => exact h.newObject name argc block 1
  | retain o =>
    rw [step]
    split_ifs with ho
    · exact h.setUsers o _ (fun hge => absurd (h.lt_of_holds ho) (Nat.not_lt.mpr hge))
    · exact h
  | release o =>
    refine h.setUsers o _ (fun hge => ?_)
    rw [(h.objectsBeyond o hge).1]
  | module interned children reuses =>
    exact coherent_module (coherent_unregister h reuses) interned children
  | retainModule i =>
    rw [step]
    split_ifs with hheld
    · refine h.setModule i (fun _ => rfl) (fun _ => rfl) (fun _ _ hme _ _ => hme)
        (fun hl => h.listed i hl) ?_
      intro hi
      rw [(h.modulesBeyond i hi).1] at hheld
      exact absurd hheld (by simp)
    · exact h
  | releaseModule i =>
    rw [step]
    refine h.setModule i (fun _ => rfl) (fun _ => rfl) (fun _ _ hme _ _ => hme)
      (fun hl => h.listed i hl) ?_
    intro hi
    have := (h.modulesBeyond i hi).1
    unfold JSModule.held at this ⊢
    rw [Bool.or_eq_false_iff, decide_eq_false_iff_not] at this
    dsimp only
    rw [this.1, Bool.false_or, decide_eq_false_iff_not]
    omega
  | function i interned name argc block =>
    rw [step]
    split_ifs with hif
    · exact coherent_function h hif.1 interned name argc block
    · exact h
  | resolve i =>
    rw [step]
    split_ifs
    · exact h.setModule i (fun _ => rfl) (fun _ => rfl) (fun _ _ hme _ _ => hme)
        (fun hl => h.listed i hl) (fun hi => (h.modulesBeyond i hi).1)
    · exact h
  | instantiate i =>
    rw [step]
    split_ifs
    · refine h.setModule i (fun _ => rfl) (fun _ => rfl) ?_ (fun hl => h.listed i hl)
        (fun hi => (h.modulesBeyond i hi).1)
      intro m me hme v hv
      obtain ⟨me', -, rfl⟩ := List.mem_map.mp hme
      cases hk : me'.kind <;> simp [hk, JSExportEntry.var_ref] at hv
    · exact h
  | evaluate i interned =>
    rw [step]
    split_ifs
    · exact coherent_load h i interned
    · exact h
  | freeNotResolved => exact coherent_js_free_modules h _
  | freeNotEvaluated => exact coherent_js_free_modules h _

/-- A dictionary in order of insertion, with names that are all normal. -/
def inOrder : Stdlib := ⟨id, id, Stdlib.perm_id⟩

end QuickJSSwift.Session
