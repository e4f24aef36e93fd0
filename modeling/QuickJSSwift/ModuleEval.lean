/-
Loading, linking and evaluating modules (`quickjs.c`, `quickjs-libc.c`): from a module's
source, or a name in an import, to the engine's list of loaded modules.

The engine keeps its module definitions in one list. An eval of a module appends a
definition, resolves its requests (which may load files, which are evals of their own),
creates the functions, links and evaluates. Every one of these steps can fail, and the
failures are cleaned up in two different ways: up to resolution the eval frees its own
definition, after it `js_free_modules` frees every definition of the context that has not
been evaluated, whoever made it.

Definitions are addressed by pointers. What the code reads through a pointer whose
definition has been freed, or through a null pointer, is a `crash`; so is running out of
C stack, since none of these recursions checks its depth.
-/
import QuickJSSwift.ModuleDef
import QuickJSSwift.Lib.Evolution
import Mathlib.Data.List.Nodup

set_option autoImplicit false

namespace QuickJSSwift.ModuleEval

open Text ModuleDef Evolution

/-! ## Definitions of modules -/

/-- `JSReqModuleEntry`. -/
structure JSReqModuleEntry where
  module_name : List UInt16
  module : Option ℕ
  deriving DecidableEq, Repr

/-- `JSImportEntry`, without the variable it binds. -/
structure JSImportEntry where
  import_name : List UInt16
  req_module_idx : ℕ
  deriving DecidableEq, Repr

/-- The compiled code of a module: whether the call that sets up its global variables and
the run of its body return normally. -/
structure Bytecode where
  initializes : Bool
  completes : Bool
  deriving DecidableEq, Repr

/-- What the parser makes of a module's source, and how its code behaves. -/
structure Script where
  req_modules : List (List UInt16)
  export_entries : List JSExportEntry
  star_export_entries : List ℕ
  import_entries : List JSImportEntry
  func_obj : Bytecode

/-- `JSModuleInitFunc`: the callback of `JSContext.module`, or native code that reports
success or failure. -/
inductive JSModuleInitFunc
  | JS_ModuleInit
  | native (succeeds : Bool)
  deriving DecidableEq, Repr

/-- `JSModuleDef`, with its address. -/
structure JSModuleDef where
  ptr : ℕ
  module_name : List UInt16
  req_module_entries : List JSReqModuleEntry := []
  export_entries : List JSExportEntry := []
  star_export_entries : List ℕ := []
  import_entries : List JSImportEntry := []
  /-- The namespace object has been built. -/
  module_ns : Bool := false
  func_obj : Option Bytecode := none
  init_func : Option JSModuleInitFunc := none
  resolved : Bool := false
  func_created : Bool := false
  instantiated : Bool := false
  evaluated : Bool := false
  eval_mark : Bool := false
  eval_has_exception : Bool := false
  deriving DecidableEq, Repr

/-- A native library: the exports it declares and what its init function reports. -/
structure Library where
  exports : List (List UInt8)
  succeeds : Bool

/-- What surrounds the engine during a step: its atom table, the allocator, the files and
libraries the loader finds, and the calls the C stack has room for. -/
structure Host where
  interned : AtomTable
  malloc : List ℕ → ℕ
  malloc_fresh : ∀ live, malloc live ∉ live
  /-- `js_load_file`; a file that does not parse is `some none`. -/
  js_load_file : List UInt8 → Option (Option Script)
  dlopen : List UInt8 → Option Library
  stack : ℕ

/-- How a call of the engine fails. -/
inductive Failure
  | exception
  | crash
  deriving DecidableEq, Repr

/-- Code that works on the list of loaded modules. -/
abbrev Engine := EStateM Failure (List JSModuleDef)

/-- The definition at an address. -/
def find (mods : List JSModuleDef) (p : ℕ) : Option JSModuleDef := mods.find? (fun m => m.ptr = p)

/-- Reading a definition through its pointer. -/
def deref (p : ℕ) : Engine JSModuleDef := fun mods =>
  match find mods p with
  | some m => .ok m mods
  | none => .error .crash mods

/-- Writing fields of a definition. -/
def write (p : ℕ) (f : JSModuleDef → JSModuleDef) (mods : List JSModuleDef) :
    List JSModuleDef :=
  mods.map (fun m => if m.ptr = p then f m else m)

def update (p : ℕ) (f : JSModuleDef → JSModuleDef) : Engine PUnit :=
  fun mods => .ok ⟨⟩ (write p f mods)

/-- `m->req_module_entries[i].module`, null or out of range being `none`. -/
def JSModuleDef.requested (m : JSModuleDef) (i : ℕ) : Option ℕ :=
  (m.req_module_entries[i]?).bind JSReqModuleEntry.module

/-- Using a pointer that may be null. -/
def nonNull : Option ℕ → Engine ℕ
  | some p => pure p
  | none => throw .crash

/-- `js_new_module_def`. -/
def js_new_module_def (host : Host) (name : List UInt16) : Engine ℕ := fun mods =>
  let p := host.malloc (mods.map JSModuleDef.ptr)
  .ok p (mods ++ [⟨p, name, [], [], [], [], false, none, none, false, false, false, false, false,
    false⟩])

/-- `js_free_module_def`. -/
def js_free_module_def (p : ℕ) (mods : List JSModuleDef) : List JSModuleDef :=
  mods.filter (fun m => m.ptr ≠ p)

/-- `JSFreeModuleEnum`. -/
inductive JSFreeModuleEnum
  | JS_FREE_MODULE_ALL
  | JS_FREE_MODULE_NOT_RESOLVED
  | JS_FREE_MODULE_NOT_EVALUATED

/-- `js_free_modules`. -/
def js_free_modules (flag : JSFreeModuleEnum) (mods : List JSModuleDef) : List JSModuleDef :=
  mods.filter (fun m =>
    match flag with
    | .JS_FREE_MODULE_ALL => false
    | .JS_FREE_MODULE_NOT_RESOLVED => m.resolved
    | .JS_FREE_MODULE_NOT_EVALUATED => m.evaluated)

/-- `JS_NewCModule`. -/
def JS_NewCModule (host : Host) (name_str : List UInt8) (func : JSModuleInitFunc) : Engine ℕ :=
  match JS_NewAtom host.interned name_str with
  | none => throw .exception
  | some name => do
    let m ← js_new_module_def host name
    update m (fun d => { d with init_func := some func })
    pure m

/-- `JS_AddModuleExport` through the module's pointer. -/
def addModuleExport (host : Host) (m : ℕ) (export_name : List UInt8) : Engine PUnit :=
  update m (fun d => { d with
    export_entries := (JS_AddModuleExport host.interned d.export_entries export_name).1 })

/-- A library's `js_init_module`, and `js_init_module_std`: a native module with its
exports. -/
def js_init_module (host : Host) (module_name : List UInt8) (library : Library) : Engine ℕ := do
  let m ← JS_NewCModule host module_name (.native library.succeeds)
  library.exports.forM (addModuleExport host m)
  pure m

/-! ## Names of modules -/

/-- The bytes of `/` and `.`. -/
def slash : UInt8 := 0x2f
def dot : UInt8 := 0x2e

/-- `strrchr(s, '/')`: what stands before and after the last slash. -/
def lastSlash (s : List UInt8) : Option (List UInt8 × List UInt8) :=
  match s.reverse.span (· ≠ slash) with
  | (_, []) => none
  | (after, _ :: before) => some (before.reverse, after.reverse)

/-- The loop of `js_default_module_normalize_name`: `filename` and what is left of the
name. -/
def normalizeLoop (filename : List UInt8) : List UInt8 → List UInt8 × List UInt8
  | 0x2e :: 0x2f :: r => normalizeLoop filename r
  | 0x2e :: 0x2e :: 0x2f :: r =>
    -- remove the last path element of filename, except if "." or ".."
    if filename = [] then (filename, 0x2e :: 0x2e :: 0x2f :: r)
    else
      let (before, last) := (lastSlash filename).getD ([], filename)
      if last = [dot] ∨ last = [dot, dot] then (filename, 0x2e :: 0x2e :: 0x2f :: r)
      else normalizeLoop before r
  | r => (filename, r)

/-- `js_default_module_normalize_name`. -/
def js_default_module_normalize_name (base_name name : List UInt8) : List UInt8 :=
  if name.head? ≠ some dot then name
  else
    let filename := ((lastSlash base_name).map Prod.fst).getD []
    let (filename, r) := normalizeLoop filename name
    if filename = [] then r else filename ++ slash :: r

/-- `JS_AtomToCString`: an atom is stored with bytes when they suffice. -/
def JS_AtomToCString (atom : List UInt16) : Option (List UInt8) :=
  JS_ToCString (if atom.all (· < 0x100) then .str8 (atom.map UInt16.toUInt8) else .str16 atom)

/-- `js_find_loaded_module`. -/
def js_find_loaded_module (mods : List JSModuleDef) (name : List UInt16) : Option JSModuleDef :=
  mods.find? (fun m => m.module_name = name)

/-! ## Resolving requests

The functions up to `js_resolve_module` call each other in a circle, through the loader.
They take the recursive call as their first argument. -/

/-- `__JS_EvalInternal` for a module, with `JS_EVAL_FLAG_COMPILE_ONLY`; `resolve` is
`js_resolve_module`. -/
def compileModule (resolve : ℕ → Engine PUnit) (host : Host) (source : Option Script)
    (filename : List UInt8) : Engine ℕ :=
  match JS_NewAtom host.interned filename with
  | none => throw .exception
  | some module_name => do
    let m ← js_new_module_def host module_name
    -- fail1: a failed parse or resolution frees the definition of this eval
    onFailure
      (match source with
        | none => throw .exception
        | some script => do
          update m (fun d => { d with
            req_module_entries := script.req_modules.map (fun name => ⟨name, none⟩)
            export_entries := script.export_entries
            star_export_entries := script.star_export_entries
            import_entries := script.import_entries
            func_obj := some script.func_obj })
          resolve m)
      (· == .exception) (js_free_module_def m)
    pure m

/-- `has_suffix(module_name, ".so")`. -/
def hasSuffixSo (module_name : List UInt8) : Bool := [0x2e, 0x73, 0x6f].isSuffixOf module_name

/-- `js_module_loader`. -/
def js_module_loader (resolve : ℕ → Engine PUnit) (host : Host) (module_name : List UInt8) :
    Engine ℕ :=
  if hasSuffixSo module_name then
    match host.dlopen module_name with
    | none => throw .exception
    | some library => js_init_module host module_name library
  else
    match host.js_load_file module_name with
    | none => throw .exception
    | some source => compileModule resolve host source module_name

/-- `js_host_resolve_imported_module`. -/
def js_host_resolve_imported_module (resolve : ℕ → Engine PUnit) (host : Host)
    (base_cname cname1 : List UInt8) : Engine ℕ :=
  let cname := js_default_module_normalize_name (cString base_cname) (cString cname1)
  match JS_NewAtom host.interned cname with
  | none => throw .exception
  | some module_name => do
    -- first look at the loaded modules
    match js_find_loaded_module (← get) module_name with
    | some m => pure m.ptr
    | none => js_module_loader resolve host cname

/-- `js_host_resolve_imported_module_atom`. -/
def js_host_resolve_imported_module_atom (resolve : ℕ → Engine PUnit) (host : Host)
    (base_module_name module_name1 : List UInt16) : Engine ℕ :=
  match JS_AtomToCString base_module_name, JS_AtomToCString module_name1 with
  | some base_cname, some cname => js_host_resolve_imported_module resolve host base_cname cname
  | _, _ => throw .exception

/-- `js_resolve_module`, with room for `stack` nested calls. -/
def js_resolve_module (host : Host) : ℕ → ℕ → Engine PUnit
  | 0, _ => throw .crash
  | stack + 1, p => do
    let m ← deref p
    if m.resolved then pure ⟨⟩
    else do
      update p (fun d => { d with resolved := true })
      m.req_module_entries.zipIdx.forM (fun (rme, i) => do
        let m1 ← js_host_resolve_imported_module_atom (js_resolve_module host stack) host
          m.module_name rme.module_name
        update p (fun d => { d with
          req_module_entries := d.req_module_entries.set i ⟨rme.module_name, some m1⟩ })
        js_resolve_module host stack m1)

/-! ## Exports of other modules -/

/-- `JS_ATOM__star_` and `JS_ATOM_default`. -/
def JS_ATOM_star : List UInt16 := [0x2a]
def JS_ATOM_default : List UInt16 := [0x64, 0x65, 0x66, 0x61, 0x75, 0x6c, 0x74]

/-- `JSResolveResultEnum`, with what is found. -/
inductive JSResolveResult
  | found (module : ℕ) (me : JSExportEntry)
  | notFound
  | circular
  | ambiguous
  | crash
  deriving DecidableEq, Repr

/-- `JSResolveState`. -/
abbrev JSResolveState := List (ℕ × List UInt16)

/-- The loop of `js_resolve_export1` over the star exports. -/
def starExports (resolve : ℕ → JSResolveState → JSResolveResult × JSResolveState)
    (m : JSModuleDef) :
    List ℕ → Option (ℕ × JSExportEntry) → JSResolveState → JSResolveResult × JSResolveState
  | [], none, s => (.notFound, s)
  | [], some (res_m, me), s => (.found res_m me, s)
  | i :: rest, pme, s =>
    match m.requested i with
    | none => (.crash, s)
    | some m1 =>
      match resolve m1 s, pme with
      | (.ambiguous, s), _ => (.ambiguous, s)
      | (.crash, s), _ => (.crash, s)
      | (.found res_m res_me, s), none => starExports resolve m rest (some (res_m, res_me)) s
      | (.found res_m res_me, s), some (m', me) =>
        if m' ≠ res_m ∨ res_me.local_name ≠ me.local_name then (.ambiguous, s)
        else starExports resolve m rest pme s
      | (_, s), _ => starExports resolve m rest pme s

/-- `js_resolve_export1`. -/
def js_resolve_export1 (mods : List JSModuleDef) :
    ℕ → ℕ → List UInt16 → JSResolveState → JSResolveResult × JSResolveState
  | 0, _, _, s => (.crash, s)
  | stack + 1, p, export_name, s =>
    if (p, export_name) ∈ s then (.circular, s)
    else
      let s := s ++ [(p, export_name)]
      match find mods p with
      | none => (.crash, s)
      | some m =>
        match find_export_entry m.export_entries export_name with
        | some me =>
          match me.kind with
          | .typeLocal _ => (.found p me, s)
          | .typeIndirect req_module_idx =>
            if me.local_name = some JS_ATOM_star then (.found p me, s)
            else
              match m.requested req_module_idx, me.local_name with
              | some m1, some name => js_resolve_export1 mods stack m1 name s
              | _, _ => (.crash, s)
        | none =>
          if export_name = JS_ATOM_default then (.notFound, s)
          else
            starExports (fun m1 s => js_resolve_export1 mods stack m1 export_name s) m
              m.star_export_entries none s

/-- `js_resolve_export`. -/
def js_resolve_export (mods : List JSModuleDef) (stack : ℕ) (m : ℕ) (export_name : List UInt16) :
    JSResolveResult :=
  (js_resolve_export1 mods stack m export_name []).1

/-- `js_resolve_export` where anything but an export throws. -/
def resolveExport (stack : ℕ) (m : ℕ) (export_name : List UInt16) :
    Engine (ℕ × JSExportEntry) := do
  match js_resolve_export (← get) stack m export_name with
  | .found res_m me => pure (res_m, me)
  | .crash => throw .crash
  | _ => throw .exception

/-! ## Namespaces -/

/-- `ExportedNameEntry` while the list is built: the entry is kept for a local export of
the module itself. -/
structure ExportedNameEntry where
  export_name : List UInt16
  me : Option JSExportEntry

/-- `GetExportNamesState`. -/
structure GetExportNamesState where
  modules : List ℕ
  exported_names : List ExportedNameEntry

/-- One export entry in `get_exported_names`. -/
def addExportedName (from_star : Bool) (exported : List ExportedNameEntry) (me : JSExportEntry) :
    List ExportedNameEntry :=
  if from_star && decide (me.export_name = JS_ATOM_default) then exported
  else if exported.any (fun en => en.export_name = me.export_name) then
    exported.map (fun en => if en.export_name = me.export_name then ⟨en.export_name, none⟩ else en)
  else
    match me.kind, from_star with
    | .typeLocal _, false => exported ++ [⟨me.export_name, some me⟩]
    | _, _ => exported ++ [⟨me.export_name, none⟩]

/-- `get_exported_names`, `none` being a crash. -/
def get_exported_names (mods : List JSModuleDef) :
    ℕ → ℕ → Bool → GetExportNamesState → Option GetExportNamesState
  | 0, _, _, _ => none
  | stack + 1, p, from_star, s =>
    -- check circular reference
    if p ∈ s.modules then some s
    else
      (find mods p).bind fun m =>
        m.star_export_entries.foldlM
          (fun s i => (m.requested i).bind fun m1 => get_exported_names mods stack m1 true s)
          ⟨s.modules ++ [p], m.export_entries.foldl (addExportedName from_star) s.exported_names⟩

/-- The variable of a local export that has been found: its cell, or else a variable of
its module's code, which a native module does not have. -/
def exportedVariable (res_m : ℕ) (res_me : JSExportEntry) : Engine PUnit :=
  match res_me.var_ref with
  | some _ => pure ⟨⟩
  | none => do
    let m ← deref res_m
    if m.func_obj.isSome then pure ⟨⟩ else throw .crash

/-- The export a name of `js_build_module_ns` stands for. -/
def ExportedNameEntry.resolve (en : ExportedNameEntry) (mods : List JSModuleDef) (stack p : ℕ) :
    JSResolveResult :=
  match en.me with
  | some me => .found p me -- fast case: no resolution needed
  | none => js_resolve_export mods stack p en.export_name

/-- One name of `js_build_module_ns`: an ambiguous one is left out, and an exported
namespace is built on demand. -/
def namespaceEntry (stack : ℕ) (p : ℕ) (en : ExportedNameEntry) : Engine PUnit := do
  match en.resolve (← get) stack p with
  | .found res_m res_me =>
    if res_me.local_name = some JS_ATOM_star then pure ⟨⟩ else exportedVariable res_m res_me
  | .ambiguous => pure ⟨⟩
  | .crash => throw .crash
  | _ => throw .exception

/-- `js_build_module_ns`, as far as it can fail. -/
def js_build_module_ns (stack : ℕ) (p : ℕ) : Engine PUnit := do
  match get_exported_names (← get) stack p false ⟨[], []⟩ with
  | none => throw .crash
  | some s => s.exported_names.forM (namespaceEntry stack p)

/-- `js_get_module_ns`. -/
def js_get_module_ns (stack : ℕ) (p : ℕ) : Engine PUnit := do
  let m ← deref p
  if m.module_ns then pure ⟨⟩
  else do
    js_build_module_ns stack p
    update p (fun d => { d with module_ns := true })

/-! ## Creating, linking and evaluating -/

/-- `js_create_module_function`. -/
def js_create_module_function : ℕ → ℕ → Engine PUnit
  | 0, _ => throw .crash
  | stack + 1, p => do
    let m ← deref p
    if m.func_created then pure ⟨⟩
    else do
      -- a native module gets the variables of its exports, others the closure of their code
      update p (fun d => { d with
        export_entries := if d.init_func.isSome then createCells d.export_entries
          else d.export_entries
        func_created := true })
      m.req_module_entries.forM (fun rme => do
        let m1 ← nonNull rme.module
        js_create_module_function stack m1)

/-- Linking one import of `js_link_module`. -/
def linkImport (stack : ℕ) (m : JSModuleDef) (mi : JSImportEntry) : Engine PUnit := do
  let m1 ← nonNull (m.requested mi.req_module_idx)
  if mi.import_name = JS_ATOM_star then js_get_module_ns stack m1
  else do
    let (res_m, res_me) ← resolveExport stack m1 mi.import_name
    if res_me.local_name = some JS_ATOM_star then
      match res_me.kind with
      | .typeLocal _ => throw .crash
      | .typeIndirect req_module_idx => do
        -- name space import from
        let res ← deref res_m
        let m2 ← nonNull (res.requested req_module_idx)
        js_get_module_ns stack m2
    else exportedVariable res_m res_me

/-- Checking one indirect export of `js_link_module`. -/
def checkIndirect (stack : ℕ) (m : JSModuleDef) (me : JSExportEntry) : Engine PUnit :=
  match me.kind with
  | .typeLocal _ => pure ⟨⟩
  | .typeIndirect req_module_idx =>
    if me.local_name = some JS_ATOM_star then pure ⟨⟩
    else do
      let m1 ← nonNull (m.requested req_module_idx)
      let _ ← resolveExport stack m1 (me.local_name.getD [])
      pure ⟨⟩

/-- `js_link_module`. -/
def js_link_module : ℕ → ℕ → Engine PUnit
  | 0, _ => throw .crash
  | stack + 1, p => do
    let m ← deref p
    if m.instantiated then pure ⟨⟩
    else do
      update p (fun d => { d with instantiated := true })
      m.req_module_entries.forM (fun rme => do
        let m1 ← nonNull rme.module
        js_link_module stack m1)
      -- check the indirect exports
      m.export_entries.forM (checkIndirect stack m)
      if m.init_func.isSome then pure ⟨⟩
      else do
        m.import_entries.forM (linkImport stack m)
        -- keep the exported variables in the module export entries
        update p (fun d => { d with export_entries := createCells d.export_entries })
        -- initialize the global variables
        if (m.func_obj.map Bytecode.initializes).getD false then pure ⟨⟩ else throw .exception

/-- Whether the init function or the body of a module returns normally.
`JSContext.JS_ModuleInit` returns 0 whether or not it finds its module. -/
def JSModuleDef.runs (m : JSModuleDef) : Bool :=
  match m.init_func with
  | some .JS_ModuleInit => true
  | some (.native succeeds) => succeeds
  | none => (m.func_obj.map Bytecode.completes).getD false

/-- `js_evaluate_module`. -/
def js_evaluate_module : ℕ → ℕ → Engine PUnit
  | 0, _ => throw .crash
  | stack + 1, p => do
    let m ← deref p
    if m.eval_mark then pure ⟨⟩ -- avoid cycles
    else if m.evaluated then
      -- rethrow the exception it raised
      if m.eval_has_exception then throw .exception else pure ⟨⟩
    else do
      update p (fun d => { d with eval_mark := true })
      onFailure
        (m.req_module_entries.forM (fun rme => do
          let p1 ← nonNull rme.module
          let m1 ← deref p1
          if m1.eval_mark then pure ⟨⟩ else js_evaluate_module stack p1))
        (· == .exception) (write p (fun d => { d with eval_mark := false }))
      update p (fun d => { d with
        func_obj := if d.init_func.isSome then d.func_obj else none
        eval_has_exception := !m.runs
        eval_mark := false
        evaluated := true })
      if m.runs then pure ⟨⟩ else throw .exception

/-- The three calls of `JS_EvalFunctionInternal` on a module. -/
def runModule (host : Host) (p : ℕ) : Engine PUnit := do
  js_create_module_function host.stack p
  js_link_module host.stack p
  js_evaluate_module host.stack p

/-- `JS_EvalFunctionInternal` for a module. -/
def JS_EvalFunctionInternal (host : Host) (p : ℕ) : Engine PUnit :=
  onFailure (runModule host p) (· == .exception) (js_free_modules .JS_FREE_MODULE_NOT_EVALUATED)

/-- `JS_Eval` with `JS_EVAL_TYPE_MODULE`. -/
def JS_Eval (host : Host) (source : Option Script) (filename : List UInt8) : Engine PUnit := do
  let m ← compileModule (js_resolve_module host host.stack) host source filename
  JS_EvalFunctionInternal host m

/-! ## What a computation of the engine leaves

Up to the call of `js_free_modules` no definition that was in the list disappears. -/

/-- The names of the exports, and where they come from. -/
def shape (entries : List JSExportEntry) : List (List UInt16 × Option ℕ) :=
  entries.map (fun me => (me.export_name,
    match me.kind with
    | .typeLocal _ => none
    | .typeIndirect req_module_idx => some req_module_idx))

/-- What the engine never changes of a definition; evaluation is never taken back. -/
structure Kept (m m' : JSModuleDef) : Prop where
  ptr : m'.ptr = m.ptr
  module_name : m'.module_name = m.module_name
  init_func : m'.init_func = m.init_func
  exported : shape m'.export_entries = shape m.export_entries
  evaluated : m.evaluated = true → m'.evaluated = true

instance : Std.Refl Kept := ⟨fun _ => ⟨rfl, rfl, rfl, rfl, id⟩⟩

instance : IsTrans JSModuleDef Kept where
  trans := by
    intro _ _ _ h h'
    exact ⟨h'.ptr.trans h.ptr, h'.module_name.trans h.module_name,
      h'.init_func.trans h.init_func, h'.exported.trans h.exported,
      fun he => h'.evaluated (h.evaluated he)⟩

/-- The addresses of the definitions. -/
def addresses (mods : List JSModuleDef) : List ℕ := mods.map JSModuleDef.ptr

/-- The definitions are kept, new ones stand behind them, and addresses stay different. -/
structure Evolves (mods mods' : List JSModuleDef) : Prop where
  kept : Extends Kept mods mods'
  nodup : (addresses mods).Nodup → (addresses mods').Nodup

instance : Std.Refl Evolves := ⟨fun mods => ⟨Extends.refl mods, id⟩⟩

instance : IsTrans (List JSModuleDef) Evolves where
  trans := by
    intro _ _ _ h h'
    exact ⟨h.kept.trans h'.kept, fun hn => h'.nodup (h.nodup hn)⟩

theorem shape_createCells (entries : List JSExportEntry) :
    shape (createCells entries) = shape entries := by
  unfold shape createCells
  rw [List.map_map]
  apply List.map_congr_left
  intro me _
  rw [Function.comp_apply]
  cases hk : me.kind <;> simp [hk]

theorem addresses_write (p : ℕ) {f : JSModuleDef → JSModuleDef} (hf : ∀ d, (f d).ptr = d.ptr)
    (mods : List JSModuleDef) : addresses (write p f mods) = addresses mods := by
  unfold addresses write
  rw [List.map_map]
  apply List.map_congr_left
  intro m _
  rw [Function.comp_apply]
  split_ifs
  · exact hf m
  · rfl

theorem evolves_write (p : ℕ) {f : JSModuleDef → JSModuleDef} (hf : ∀ d, Kept d (f d))
    (mods : List JSModuleDef) : Evolves mods (write p f mods) := by
  constructor
  · apply Extends.map
    intro m
    split_ifs
    · exact hf m
    · exact refl_of Kept m
  · intro h
    rw [addresses_write p (fun d => (hf d).ptr)]
    exact h

/-- Writing to a definition that is new. -/
theorem Evolves.write_new {mods mods' : List JSModuleDef} (h : Evolves mods mods') {p : ℕ}
    (hp : p ∉ addresses mods) {f : JSModuleDef → JSModuleDef} (hf : ∀ d, (f d).ptr = d.ptr) :
    Evolves mods (write p f mods') := by
  constructor
  · apply h.kept.map_new
    intro a ha b hab
    rw [if_neg]
    intro hb
    exact hp (List.mem_map.mpr ⟨a, ha, hab.ptr.symm.trans hb⟩)
  · intro hn
    rw [addresses_write p hf]
    exact h.nodup hn

/-- Freeing a definition that is new. -/
theorem Evolves.free_new {mods mods' : List JSModuleDef} (h : Evolves mods mods') {p : ℕ}
    (hp : p ∉ addresses mods) : Evolves mods (js_free_module_def p mods') := by
  constructor
  · apply h.kept.filter_new
    intro a ha b hab
    rw [decide_eq_true_iff]
    intro hb
    exact hp (List.mem_map.mpr ⟨a, ha, hab.ptr.symm.trans hb⟩)
  · intro hn
    exact (h.nodup hn).sublist (List.filter_sublist.map _)

theorem final_update_bind {α : Type} (p : ℕ) (f : JSModuleDef → JSModuleDef)
    (k : PUnit → Engine α) (mods : List JSModuleDef) :
    final (update p f >>= k) mods = final (k ⟨⟩) (write p f mods) := rfl

section Calls

variable (host : Host)

theorem respects_deref (p : ℕ) : Respects Evolves (deref p) := by
  intro mods
  unfold final deref
  cases find mods p <;> exact refl_of Evolves mods

theorem respects_nonNull (p : Option ℕ) : Respects Evolves (nonNull p) := by
  cases p with
  | none => exact respects_throw _
  | some p => exact respects_pure p

theorem respects_get : Respects Evolves (get : Engine (List JSModuleDef)) := fun mods =>
  refl_of Evolves mods

theorem respects_update (p : ℕ) {f : JSModuleDef → JSModuleDef} (hf : ∀ d, Kept d (f d)) :
    Respects Evolves (update p f) := fun mods => evolves_write p hf mods

theorem evolves_append {mods : List JSModuleDef} {d : JSModuleDef}
    (hd : d.ptr ∉ addresses mods) : Evolves mods (mods ++ [d]) := by
  refine ⟨Extends.append _ _, fun hn => ?_⟩
  unfold addresses at hn hd ⊢
  rw [List.map_append, List.nodup_append]
  refine ⟨hn, List.nodup_singleton _, ?_⟩
  rintro a ha b hb rfl
  rw [List.map_singleton, List.mem_singleton] at hb
  rw [hb] at ha
  exact hd ha

/-- A new definition has a new address. -/
theorem js_new_module_def_spec (name : List UInt16) (mods : List JSModuleDef) :
    ∃ p, p ∉ addresses mods ∧
      js_new_module_def host name mods = .ok p (mods ++ [{ ptr := p, module_name := name }]) :=
  ⟨_, host.malloc_fresh (mods.map JSModuleDef.ptr), rfl⟩

/-- Writing to the last definition. -/
theorem write_append {mods : List JSModuleDef} {d : JSModuleDef} (hd : d.ptr ∉ addresses mods)
    (f : JSModuleDef → JSModuleDef) : write d.ptr f (mods ++ [d]) = mods ++ [f d] := by
  unfold write
  rw [List.map_append, List.map_singleton, if_pos rfl]
  congr 1
  have hold : ∀ m ∈ mods, (if m.ptr = d.ptr then f m else m) = m := by
    intro m hm
    rw [if_neg]
    intro heq
    exact hd (List.mem_map.mpr ⟨m, hm, heq⟩)
  exact (List.map_congr_left hold).trans (List.map_id _)

/-- A native module is appended, unless its name has no atom. -/
theorem JS_NewCModule_spec (name_str : List UInt8) (func : JSModuleInitFunc)
    (mods : List JSModuleDef) :
    match JS_NewAtom host.interned name_str with
    | none => JS_NewCModule host name_str func mods = .error .exception mods
    | some name => ∃ p, p ∉ addresses mods ∧ JS_NewCModule host name_str func mods
        = .ok p (mods ++ [{ ptr := p, module_name := name, init_func := some func }]) := by
  unfold JS_NewCModule
  cases JS_NewAtom host.interned name_str with
  | none => rfl
  | some name =>
    obtain ⟨p, hp, heq⟩ := js_new_module_def_spec host name mods
    refine ⟨p, hp, ?_⟩
    have hwrite := @write_append mods { ptr := p, module_name := name } hp
      (fun d => { d with init_func := some func })
    dsimp only at hwrite ⊢
    rw [bind_of_ok heq, ← hwrite]
    rfl

/-- The entries of a module after a list of `JS_AddModuleExport` calls. -/
def addModuleExports (interned : AtomTable) (entries : List JSExportEntry)
    (exports : List (List UInt8)) : List JSExportEntry :=
  exports.foldl (fun entries name => (JS_AddModuleExport interned entries name).1) entries

theorem addModuleExport_forM (exports : List (List UInt8)) {mods : List JSModuleDef}
    {d : JSModuleDef} (hd : d.ptr ∉ addresses mods) :
    exports.forM (addModuleExport host d.ptr) (mods ++ [d]) = .ok ⟨⟩ (mods ++ [{ d with
      export_entries := addModuleExports host.interned d.export_entries exports }]) := by
  induction exports generalizing d with
  | nil => rfl
  | cons name exports ih =>
    have hfirst : addModuleExport host d.ptr name (mods ++ [d]) = .ok ⟨⟩ (mods ++ [{ d with
        export_entries := (JS_AddModuleExport host.interned d.export_entries name).1 }]) := by
      unfold addModuleExport update
      rw [write_append hd]
    refine (bind_of_ok hfirst fun _ => exports.forM (addModuleExport host d.ptr)).trans ?_
    exact @ih { d with
      export_entries := (JS_AddModuleExport host.interned d.export_entries name).1 } hd

/-- Compiling a module, failing or not, leaves the other definitions alone if resolving
does. -/
theorem respects_compileModule {resolve : ℕ → Engine PUnit}
    (hresolve : ∀ p, Respects Evolves (resolve p)) (source : Option Script)
    (filename : List UInt8) : Respects Evolves (compileModule resolve host source filename) := by
  unfold compileModule
  cases JS_NewAtom host.interned filename with
  | none => exact respects_throw _
  | some module_name =>
    intro mods
    obtain ⟨p, hfresh, heq⟩ := js_new_module_def_spec host module_name mods
    rw [final_bind, heq]
    dsimp only
    rw [final_bind_pure]
    set d : JSModuleDef := { ptr := p, module_name := module_name } with hd
    have hev : Evolves mods (mods ++ [d]) := evolves_append hfresh
    -- Whatever happens to the new definition, and whether `fail1` frees it or not.
    have hbody : ∀ x : Engine PUnit, Evolves mods (final x (mods ++ [d])) →
        Evolves mods (final (onFailure x (· == .exception) (js_free_module_def p)) (mods ++ [d])) := by
      intro x hx
      rcases final_onFailure x (· == .exception) (js_free_module_def p) (mods ++ [d]) with h | h
      · rw [h]
        exact hx
      · rw [h]
        exact hx.free_new hfresh
    apply hbody
    cases source with
    | none => exact hev
    | some script =>
      rw [final_update_bind]
      refine trans_of Evolves ?_ (hresolve p _)
      exact hev.write_new hfresh (fun _ => rfl)

theorem respects_js_init_module (module_name : List UInt8) (library : Library) :
    Respects Evolves (js_init_module host module_name library) := by
  intro mods
  have hspec := JS_NewCModule_spec host module_name (.native library.succeeds) mods
  unfold js_init_module
  rw [final_bind]
  cases hatom : JS_NewAtom host.interned module_name with
  | none =>
    rw [hatom] at hspec
    rw [hspec]
    exact refl_of Evolves mods
  | some name =>
    rw [hatom] at hspec
    obtain ⟨p, hp, heq⟩ := hspec
    have hexports := @addModuleExport_forM host library.exports mods
      { ptr := p, module_name := name, init_func := some (.native library.succeeds) } hp
    rw [heq]
    dsimp only
    rw [final_bind_pure, final_of_ok hexports]
    exact evolves_append hp

/-- The loader leaves the other definitions alone. -/
theorem respects_js_module_loader {resolve : ℕ → Engine PUnit}
    (hresolve : ∀ p, Respects Evolves (resolve p)) (module_name : List UInt8) :
    Respects Evolves (js_module_loader resolve host module_name) := by
  unfold js_module_loader
  split_ifs
  · cases host.dlopen module_name with
    | none => exact respects_throw _
    | some library => exact respects_js_init_module host module_name library
  · cases host.js_load_file module_name with
    | none => exact respects_throw _
    | some source => exact respects_compileModule host hresolve source module_name

theorem respects_js_host_resolve_imported_module_atom {resolve : ℕ → Engine PUnit}
    (hresolve : ∀ p, Respects Evolves (resolve p)) (base name : List UInt16) :
    Respects Evolves (js_host_resolve_imported_module_atom resolve host base name) := by
  unfold js_host_resolve_imported_module_atom
  cases JS_AtomToCString base with
  | none => exact respects_throw _
  | some base_cname =>
    cases JS_AtomToCString name with
    | none => exact respects_throw _
    | some cname =>
      dsimp only
      unfold js_host_resolve_imported_module
      dsimp only
      cases JS_NewAtom host.interned
        (js_default_module_normalize_name (cString base_cname) (cString cname)) with
      | none => exact respects_throw _
      | some module_name =>
        refine respects_bind respects_get fun mods => ?_
        cases js_find_loaded_module mods module_name with
        | none => exact respects_js_module_loader host hresolve _
        | some m => exact respects_pure m.ptr

theorem respects_js_resolve_module (stack p : ℕ) :
    Respects Evolves (js_resolve_module host stack p) := by
  induction stack generalizing p with
  | zero => exact respects_throw _
  | succ stack ih =>
    unfold js_resolve_module
    refine respects_bind (respects_deref p) fun m => respects_ite (respects_pure _) ?_
    refine respects_bind (respects_update p fun d => ⟨rfl, rfl, rfl, rfl, id⟩) fun _ => ?_
    refine respects_forM fun rme => ?_
    refine respects_bind (respects_js_host_resolve_imported_module_atom host ih _ _) fun m1 => ?_
    refine respects_bind (respects_update p fun d => ⟨rfl, rfl, rfl, rfl, id⟩) fun _ => ?_
    exact ih m1

theorem respects_js_create_module_function (stack p : ℕ) :
    Respects Evolves (js_create_module_function stack p) := by
  induction stack generalizing p with
  | zero => exact respects_throw _
  | succ stack ih =>
    unfold js_create_module_function
    refine respects_bind (respects_deref p) fun m => respects_ite (respects_pure _) ?_
    refine respects_bind (respects_update p fun d => ⟨rfl, rfl, rfl, ?_, id⟩) fun _ => ?_
    · dsimp only
      split_ifs
      · exact shape_createCells _
      · rfl
    · refine respects_forM fun rme => ?_
      exact respects_bind (respects_nonNull _) fun m1 => ih m1

theorem respects_resolveExport (stack m : ℕ) (export_name : List UInt16) :
    Respects Evolves (resolveExport stack m export_name) := by
  unfold resolveExport
  refine respects_bind respects_get fun mods => ?_
  cases js_resolve_export mods stack m export_name with
  | found res_m me => exact respects_pure _
  | _ => exact respects_throw _

theorem respects_exportedVariable (res_m : ℕ) (res_me : JSExportEntry) :
    Respects Evolves (exportedVariable res_m res_me) := by
  unfold exportedVariable
  cases res_me.var_ref with
  | some _ => exact respects_pure _
  | none =>
    exact respects_bind (respects_deref res_m) fun m =>
      respects_ite (respects_pure _) (respects_throw _)

theorem respects_js_get_module_ns (stack p : ℕ) :
    Respects Evolves (js_get_module_ns stack p) := by
  have hentry : ∀ en, Respects Evolves (namespaceEntry stack p en) := by
    intro en
    unfold namespaceEntry
    refine respects_bind respects_get fun mods => ?_
    cases en.resolve mods stack p with
    | found res_m res_me =>
      exact respects_ite (respects_pure _) (respects_exportedVariable res_m res_me)
    | ambiguous => exact respects_pure _
    | _ => exact respects_throw _
  have hbuild : Respects Evolves (js_build_module_ns stack p) := by
    unfold js_build_module_ns
    refine respects_bind respects_get fun mods => ?_
    cases get_exported_names mods stack p false ⟨[], []⟩ with
    | none => exact respects_throw _
    | some s => exact respects_forM hentry
  unfold js_get_module_ns
  refine respects_bind (respects_deref p) fun m => respects_ite (respects_pure _) ?_
  exact respects_bind hbuild fun _ => respects_update p fun d => ⟨rfl, rfl, rfl, rfl, id⟩

theorem respects_linkImport (stack : ℕ) (m : JSModuleDef) (mi : JSImportEntry) :
    Respects Evolves (linkImport stack m mi) := by
  unfold linkImport
  refine respects_bind (respects_nonNull _) fun m1 => ?_
  refine respects_ite (respects_js_get_module_ns stack m1) ?_
  refine respects_bind (respects_resolveExport stack m1 _) fun res => ?_
  refine respects_ite ?_ (respects_exportedVariable res.1 res.2)
  cases res.2.kind with
  | typeLocal _ => exact respects_throw _
  | typeIndirect i =>
    refine respects_bind (respects_deref res.1) fun d => ?_
    exact respects_bind (respects_nonNull _) fun m2 => respects_js_get_module_ns stack m2

theorem respects_checkIndirect (stack : ℕ) (m : JSModuleDef) (me : JSExportEntry) :
    Respects Evolves (checkIndirect stack m me) := by
  unfold checkIndirect
  cases me.kind with
  | typeLocal _ => exact respects_pure _
  | typeIndirect i =>
    refine respects_ite (respects_pure _) ?_
    refine respects_bind (respects_nonNull _) fun m1 => ?_
    exact respects_bind (respects_resolveExport stack m1 _) fun _ => respects_pure _

theorem respects_js_link_module (stack p : ℕ) : Respects Evolves (js_link_module stack p) := by
  induction stack generalizing p with
  | zero => exact respects_throw _
  | succ stack ih =>
    unfold js_link_module
    refine respects_bind (respects_deref p) fun m => respects_ite (respects_pure _) ?_
    refine respects_bind (respects_update p fun d => ⟨rfl, rfl, rfl, rfl, id⟩) fun _ => ?_
    refine respects_bind (respects_forM fun rme => ?_) fun _ => ?_
    · exact respects_bind (respects_nonNull _) fun m1 => ih m1
    refine respects_bind (respects_forM (respects_checkIndirect stack m)) fun _ => ?_
    refine respects_ite (respects_pure _) ?_
    refine respects_bind (respects_forM (respects_linkImport stack m)) fun _ => ?_
    refine respects_bind (respects_update p fun d =>
      ⟨rfl, rfl, rfl, shape_createCells _, id⟩) fun _ => ?_
    exact respects_ite (respects_pure _) (respects_throw _)

theorem respects_js_evaluate_module (stack p : ℕ) :
    Respects Evolves (js_evaluate_module stack p) := by
  induction stack generalizing p with
  | zero => exact respects_throw _
  | succ stack ih =>
    unfold js_evaluate_module
    refine respects_bind (respects_deref p) fun m => respects_ite (respects_pure _) ?_
    refine respects_ite (respects_ite (respects_throw _) (respects_pure _)) ?_
    refine respects_bind (respects_update p fun d => ⟨rfl, rfl, rfl, rfl, id⟩) fun _ => ?_
    refine respects_bind (respects_onFailure (respects_forM fun rme => ?_)
      (evolves_write p fun d => ⟨rfl, rfl, rfl, rfl, id⟩)) fun _ => ?_
    · refine respects_bind (respects_nonNull _) fun p1 => ?_
      refine respects_bind (respects_deref p1) fun m1 => ?_
      exact respects_ite (respects_pure _) (ih p1)
    refine respects_bind (respects_update p fun d => ⟨rfl, rfl, rfl, rfl, fun _ => rfl⟩)
      fun _ => ?_
    exact respects_ite (respects_pure _) (respects_throw _)

/-- **Everything before the clean-up** keeps every definition that was loaded. -/
theorem respects_runModule (p : ℕ) : Respects Evolves (runModule host p) := by
  unfold runModule
  refine respects_bind (respects_js_create_module_function _ p) fun _ => ?_
  exact respects_bind (respects_js_link_module _ p) fun _ => respects_js_evaluate_module _ p

end Calls

end QuickJSSwift.ModuleEval
