/-
The properties of a `JSModule` and the exports of its engine module: `JSModule.init`,
`function(_:argc:block:)` and `load()` (`JSModule.swift`) against `JS_AddModuleExport`,
`JS_SetModuleExport` and the creation of the export cells (`quickjs.c`).

Swift keeps the properties in a dictionary, the engine keeps a list of export entries.
Both grow with every registration, the engine gives the entries their cells once, when
the module is first linked, and `load()` fills the cells once, when it is evaluated.
Nothing ties the four together: `function` may be called at any time, and the results of
the engine's calls are ignored.

`Agrees` is what the two sides owe each other in every state. `exports_agree_iff` says
for which runs it holds, for every list of builder properties and every interleaving of
registrations with the engine's two steps.
-/
import QuickJSSwift.Lib.Run
import QuickJSSwift.Dictionary
import QuickJSSwift.ModuleDef
import QuickJSSwift.TextRoundTrip
import Mathlib.Algebra.Order.BigOperators.Group.List

set_option autoImplicit false

namespace QuickJSSwift.ModuleExports

open Utf Text ModuleDef Stdlib

/-! ## Properties and dictionaries -/

/-- A `JSModuleProperty`: a leaf with the function that is its `jsValue` once it has been
added to a context, or what `ModuleBuilder.buildBlock` makes of a block. -/
inductive JSModuleProperty
  | function (name : List Char) (f : ℕ)
  | combine (children : List JSModuleProperty)

/-- `name`; a combined property is called `<DUMY>`. -/
def JSModuleProperty.name : JSModuleProperty → List Char
  | .function n _ => n
  | .combine _ => ['<', 'D', 'U', 'M', 'Y', '>']

/-- `jsValue`. -/
def JSModuleProperty.jsValue : JSModuleProperty → Content
  | .function _ f => .function f
  | .combine _ => .undefined

variable (swift : Stdlib)

/-! ## The module -/

/-- A `JSModule` with the engine module it stands for. -/
structure JSModule where
  properties : Dictionary JSModuleProperty
  export_entries : List JSExportEntry
  func_created : Bool
  loaded : Bool
  /-- Some `setExport` of `load()` found no entry with a cell. -/
  missed : Bool
  /-- The next function the engine makes. -/
  next : ℕ

/-- `addExport`; the result of the engine's call is ignored. -/
def JSModule.addExport (self : JSModule) (interned : AtomTable) (name : List Char) : JSModule :=
  { self with export_entries := (JS_AddModuleExport interned self.export_entries (utf8 name)).1 }

/-- The properties `JSModule.init` takes from what the builder returned. -/
def topLevel : JSModuleProperty → List JSModuleProperty
  | .combine children => children
  | .function n f => [.function n f]

/-- What a builder returned: any property. The engine's functions of its properties are
numbered below `next`, and one function belongs to one object, which has one name. -/
structure Builder where
  property : JSModuleProperty
  next : ℕ
  built : ∀ n f, .function n f ∈ topLevel property → f < next
  named : ∀ n n' f, .function n f ∈ topLevel property → .function n' f ∈ topLevel property →
    n = n'

/-- The dictionary `JSModule.init` fills from what the builder returned. -/
def builderProperties (property : JSModuleProperty) : Dictionary JSModuleProperty :=
  match property with
  | .combine children => children.foldl (fun d obj => swift.set d obj.name obj) []
  | .function n f => [(n, .function n f)]

/-- `JSModule.init`. -/
def JSModule.init (interned : AtomTable) (builder : Builder) : JSModule :=
  let properties := builderProperties swift builder.property
  (swift.order properties).foldl (fun self kv => self.addExport interned kv.1)
    ⟨properties, [], false, false, false, builder.next⟩

/-- `function(_:argc:block:)`. -/
def JSModule.function (self : JSModule) (interned : AtomTable) (name : List Char) : JSModule :=
  let function := JSModuleProperty.function name self.next
  { self with
    properties := swift.set self.properties name function
    next := self.next + 1 }.addExport interned name

/-- One `setExport` of `load()`. -/
def JSModule.setExport (self : JSModule) (interned : AtomTable) (kv : List Char × JSModuleProperty) :
    JSModule :=
  match JS_SetModuleExport interned self.export_entries (utf8 kv.1) kv.2.jsValue with
  | .stored entries => { self with export_entries := entries }
  | .freed => { self with missed := true }
  | .nullDereference => { self with missed := true }

/-- `load()`. -/
def JSModule.load (self : JSModule) (interned : AtomTable) : JSModule :=
  let self := (swift.order self.properties).foldl (fun self kv => self.setExport interned kv) self
  { self with loaded := true }

/-- What can happen to a module. The atom table is the engine's at that moment. -/
inductive Step
  | function (interned : AtomTable) (name : List Char)
  | instantiate
  | evaluate (interned : AtomTable)

/-- One step. The engine creates the cells once and calls `load()` once, after that. -/
def step (self : JSModule) : Step → JSModule
  | .function interned name => self.function swift interned name
  | .instantiate =>
    if self.func_created then self
    else { self with export_entries := createCells self.export_entries, func_created := true }
  | .evaluate interned =>
    if self.func_created && !self.loaded then self.load swift interned else self

/-! ## What the two sides owe each other -/

/-- The entries are the keys, each once; `load()` found all its cells; and from then on
every property is in the cell of its name. -/
structure Agrees (m : JSModule) : Prop where
  entries : (names m.export_entries).Perm (m.properties.map (fun kv => utf16 kv.1))
  found : m.missed = false
  bound : m.loaded = true → ∀ kv ∈ m.properties,
    ∃ n f, kv.2 = .function n f ∧ cell m.export_entries (utf16 kv.1) = some (.function f)

/-- The engine's atom for a name is the name. -/
def Faithful (interned : AtomTable) (name : List Char) : Prop :=
  JS_NewAtom interned (utf8 name) = some (utf16 name)

/-- When a step keeps the two sides together. A registration must come before `load()`;
under a new name the engine's atom must be the name, and under a name that is taken it
must add no entry. When `load()` runs, every property must be a function whose name is
its atom and has a cell, that is, had its entry when the cells were created. -/
def StepOk (self : JSModule) : Step → Prop
  | .function interned name =>
    self.loaded = false ∧
      if swift.HasKey self.properties name then
        ∀ a, JS_NewAtom interned (utf8 name) = some a → a ∈ names self.export_entries
      else Faithful interned name
  | .instantiate => True
  | .evaluate interned =>
    self.func_created = true → self.loaded = false → ∀ kv ∈ self.properties,
      (∃ n f, kv.2 = .function n f) ∧ Faithful interned kv.1 ∧
        cell self.export_entries (utf16 kv.1) ≠ none

variable {swift}

/-! ## Keys and atoms -/

theorem utf16_keys_nodup {d : Dictionary JSModuleProperty} (h : swift.KeysNodup d) :
    (d.map (fun kv => utf16 kv.1)).Nodup := by
  have hkeys : (d.map Prod.fst).Nodup := by
    apply List.Nodup.of_map swift.normalize
    rw [List.map_map]
    exact h
  have hmap : d.map (fun kv => utf16 kv.1) = (d.map Prod.fst).map utf16 := by
    rw [List.map_map]
    rfl
  rw [hmap]
  exact hkeys.map utf16_injective

/-! ## What holds in every state -/

/-- Facts that no step can break: the keys differ, no function has been built twice or
lies in a cell before it is built, and the cells are empty until `load()`. -/
structure Coherent (swift : Stdlib) (m : JSModule) : Prop where
  keys : swift.KeysNodup m.properties
  built : ∀ kv ∈ m.properties, ∀ n f, kv.2 = .function n f → f < m.next
  distinct : ∀ kv ∈ m.properties, ∀ kv' ∈ m.properties, ∀ n n' f,
    kv.2 = .function n f → kv'.2 = .function n' f → kv = kv'
  stored : ∀ u f, cell m.export_entries u = some (.function f) → f < m.next
  empty : m.loaded = false → ∀ u c, cell m.export_entries u = some c → c = .undefined
  created : m.loaded = true → m.func_created = true

/-- A new entry has no cell. -/
theorem cell_append_new (entries : List JSExportEntry) (a u : List UInt16) :
    cell (entries ++ [⟨a, none, .typeLocal none⟩]) u = cell entries u := by
  induction entries with
  | nil =>
    rw [List.nil_append, cell_cons]
    split_ifs <;> rfl
  | cons me entries ih => rw [List.cons_append, cell_cons, cell_cons, ih]

theorem cell_addExport (self : JSModule) (interned : AtomTable) (name : List Char)
    (u : List UInt16) :
    cell (self.addExport interned name).export_entries u = cell self.export_entries u := by
  unfold JSModule.addExport
  dsimp only
  rw [JS_AddModuleExport_eq]
  split
  · rfl
  · split_ifs
    · rfl
    · rw [cell_append_new]

/-- The names after a registration. -/
theorem names_addExport (self : JSModule) (interned : AtomTable) (name : List Char) :
    names (self.addExport interned name).export_entries =
      match JS_NewAtom interned (utf8 name) with
      | none => names self.export_entries
      | some a =>
        if a ∈ names self.export_entries then names self.export_entries
        else names self.export_entries ++ [a] := by
  unfold JSModule.addExport
  dsimp only
  rw [JS_AddModuleExport_eq]
  cases JS_NewAtom interned (utf8 name) with
  | none => rfl
  | some a =>
    dsimp only
    split_ifs
    · rfl
    · unfold names
      rw [List.map_append]
      rfl

/-- Setting the next function keeps the functions of different properties different. -/
theorem distinct_set {d : Dictionary JSModuleProperty} {next : ℕ}
    (hbuilt : ∀ kv ∈ d, ∀ n f, kv.2 = .function n f → f < next)
    (hdist : ∀ kv ∈ d, ∀ kv' ∈ d, ∀ n n' f,
      kv.2 = .function n f → kv'.2 = .function n' f → kv = kv') (name : List Char) :
    ∀ kv ∈ swift.set d name (.function name next),
      ∀ kv' ∈ swift.set d name (.function name next), ∀ n n' f,
        kv.2 = .function n f → kv'.2 = .function n' f → kv = kv' := by
  have hlt : ∀ {kv : List Char × JSModuleProperty}, kv ∈ d → ∀ {n n' f}, kv.2 = .function n f →
      JSModuleProperty.function name next = .function n' f → False := by
    intro kv hkv n n' f hf hnew
    injection hnew with _ hnew
    have := hbuilt kv hkv n f hf
    omega
  intro kv hkv kv' hkv' n n' f hf hf'
  by_cases hp : swift.HasKey d name
  · obtain ⟨l, k, v, r, hd, -, hset⟩ := set_of_present (.function name next) hp
    rw [hset] at hkv hkv'
    have hold : ∀ kv ∈ l ++ r, kv ∈ d := by
      intro kv hmem
      rw [hd]
      simp only [List.mem_append, List.mem_cons] at hmem ⊢
      tauto
    have hsplit : ∀ {kv : List Char × JSModuleProperty},
        kv ∈ l ++ (k, .function name next) :: r → kv = (k, .function name next) ∨ kv ∈ l ++ r := by
      intro kv hmem
      simp only [List.mem_append, List.mem_cons] at hmem ⊢
      tauto
    rcases hsplit hkv with rfl | h <;> rcases hsplit hkv' with rfl | h'
    · rfl
    · exact (hlt (hold _ h') hf' hf).elim
    · exact (hlt (hold _ h) hf hf').elim
    · exact hdist kv (hold _ h) kv' (hold _ h') n n' f hf hf'
  · rw [set_of_new _ hp] at hkv hkv'
    rcases List.mem_append.mp hkv with h | h <;> rcases List.mem_append.mp hkv' with h' | h'
    · exact hdist kv h kv' h' n n' f hf hf'
    · rw [List.mem_singleton.mp h'] at hf'
      exact (hlt h hf hf').elim
    · rw [List.mem_singleton.mp h] at hf
      exact (hlt h' hf' hf).elim
    · rw [List.mem_singleton.mp h, List.mem_singleton.mp h']

theorem coherent_function {self : JSModule} (h : Coherent swift self) (interned : AtomTable)
    (name : List Char) : Coherent swift (self.function swift interned name) := by
  have hcell : ∀ u, cell (self.function swift interned name).export_entries u
      = cell self.export_entries u := fun u => cell_addExport _ interned name u
  have hprops : (self.function swift interned name).properties
      = swift.set self.properties name (.function name self.next) := rfl
  have hnext : (self.function swift interned name).next = self.next + 1 := rfl
  constructor
  · rw [hprops]
    exact keysNodup_set h.keys _ _
  · intro kv hkv n f hf
    rw [hprops] at hkv
    rw [hnext]
    rcases mem_set h.keys hkv with ⟨hold, -⟩ | ⟨hnew, -⟩
    · have := h.built kv hold n f hf
      omega
    · rw [hnew] at hf
      injection hf with _ hf
      omega
  · rw [hprops]
    exact distinct_set h.built h.distinct name
  · intro u f hu
    rw [hcell] at hu
    have := h.stored u f hu
    rw [hnext]
    omega
  · intro hl u c hu
    rw [hcell] at hu
    exact h.empty hl u c hu
  · exact h.created

/-! ## `load()` -/

/-- The `setExport` calls of `load()` over a list of properties. -/
def setExports (interned : AtomTable) (m : JSModule) (kvs : Dictionary JSModuleProperty) : JSModule :=
  kvs.foldl (fun m kv => m.setExport interned kv) m

/-- One `setExport` changes at most one cell, and only a cell that exists. -/
theorem setExport_spec (interned : AtomTable) (m : JSModule) (kv : List Char × JSModuleProperty) :
    (m.setExport interned kv).properties = m.properties ∧
      (m.setExport interned kv).func_created = m.func_created ∧
      (m.setExport interned kv).next = m.next ∧
      names (m.setExport interned kv).export_entries = names m.export_entries ∧
      ∀ u, cell (m.setExport interned kv).export_entries u =
        if JS_NewAtom interned (utf8 kv.1) = some u ∧ cell m.export_entries u ≠ none
        then some kv.2.jsValue else cell m.export_entries u := by
  unfold JSModule.setExport JS_SetModuleExport
  cases hatom : JS_NewAtom interned (utf8 kv.1) with
  | none => simp
  | some a =>
    dsimp only
    cases hfind : find_export_entry m.export_entries a with
    | none =>
      have hcell : cell m.export_entries a = none := by rw [cell, hfind, Option.bind_none]
      refine ⟨rfl, rfl, rfl, rfl, fun u => ?_⟩
      rw [if_neg]
      rintro ⟨heq, hne⟩
      rw [Option.some_inj] at heq
      exact hne (heq ▸ hcell)
    | some me =>
      have hcell : cell m.export_entries a = me.var_ref := by rw [cell, hfind, Option.bind_some]
      dsimp only
      cases hvar : me.var_ref with
      | none =>
        refine ⟨rfl, rfl, rfl, rfl, fun u => ?_⟩
        rw [if_neg]
        rintro ⟨heq, hne⟩
        rw [Option.some_inj] at heq
        exact hne (heq ▸ hcell.trans hvar)
      | some c =>
        refine ⟨rfl, rfl, rfl, names_setCell _ _ _, fun u => ?_⟩
        have hmem : a ∈ names m.export_entries := by
          by_contra hnot
          rw [find_export_entry_eq_none.mpr hnot] at hfind
          exact absurd hfind (by simp)
        dsimp only
        rw [cell_setCell]
        by_cases hu : u = a
        · rw [if_pos ⟨hu, hmem⟩, if_pos ⟨by rw [hu], by rw [hu, hcell, hvar]; simp⟩]
        · rw [if_neg (fun h => hu h.1), if_neg (fun h => hu (Option.some_inj.mp h.1).symm)]

/-- What no `setExport` changes. -/
theorem setExports_frame (interned : AtomTable) (m : JSModule) (kvs : Dictionary JSModuleProperty) :
    (setExports interned m kvs).properties = m.properties ∧
      (setExports interned m kvs).func_created = m.func_created ∧
      (setExports interned m kvs).next = m.next ∧
      names (setExports interned m kvs).export_entries = names m.export_entries ∧
      ∀ u, cell (setExports interned m kvs).export_entries u = none ↔
        cell m.export_entries u = none := by
  induction kvs generalizing m with
  | nil => exact ⟨rfl, rfl, rfl, rfl, fun u => Iff.rfl⟩
  | cons kv kvs ih =>
    obtain ⟨hprops, hcreated, hnext, hnames, hcell⟩ := setExport_spec interned m kv
    obtain ⟨hprops', hcreated', hnext', hnames', hcell'⟩ := ih (m.setExport interned kv)
    refine ⟨hprops'.trans hprops, hcreated'.trans hcreated, hnext'.trans hnext,
      hnames'.trans hnames, fun u => (hcell' u).trans ?_⟩
    rw [hcell u]
    split_ifs with h
    · exact iff_of_false (by simp) h.2
    · exact Iff.rfl

/-- What is in a cell was there before, or is the property whose atom leads to it. -/
theorem setExports_origin {interned : AtomTable} {m : JSModule} {kvs : Dictionary JSModuleProperty}
    {u : List UInt16} {c : Content}
    (h : cell (setExports interned m kvs).export_entries u = some c) :
    cell m.export_entries u = some c ∨
      ∃ kv ∈ kvs, JS_NewAtom interned (utf8 kv.1) = some u ∧ c = kv.2.jsValue := by
  induction kvs generalizing m with
  | nil => exact Or.inl h
  | cons kv kvs ih =>
    rcases ih h with hmid | ⟨kv', hkv', hatom, hc⟩
    · rw [(setExport_spec interned m kv).2.2.2.2 u] at hmid
      split_ifs at hmid with hif
      · exact Or.inr ⟨kv, List.mem_cons_self, hif.1, (Option.some_inj.mp hmid).symm⟩
      · exact Or.inl hmid
    · exact Or.inr ⟨kv', List.mem_cons_of_mem _ hkv', hatom, hc⟩

/-- With different atoms and cells for all of them, nothing is missed and every property
lands in its cell. -/
theorem setExports_bound {interned : AtomTable} {m : JSModule} {kvs : Dictionary JSModuleProperty}
    {atom : List Char × JSModuleProperty → List UInt16}
    (hok : ∀ kv ∈ kvs, JS_NewAtom interned (utf8 kv.1) = some (atom kv) ∧
      cell m.export_entries (atom kv) ≠ none)
    (hnodup : (kvs.map atom).Nodup) :
    (setExports interned m kvs).missed = m.missed ∧
      ∀ kv ∈ kvs, cell (setExports interned m kvs).export_entries (atom kv)
        = some kv.2.jsValue := by
  induction kvs generalizing m with
  | nil => exact ⟨rfl, by simp⟩
  | cons kv kvs ih =>
    obtain ⟨hatom, hcell⟩ := hok kv List.mem_cons_self
    rw [List.map_cons, List.nodup_cons] at hnodup
    have hspec := (setExport_spec interned m kv).2.2.2.2
    have hmissed : (m.setExport interned kv).missed = m.missed := by
      unfold JSModule.setExport JS_SetModuleExport
      rw [hatom]
      unfold cell at hcell
      cases hfind : find_export_entry m.export_entries (atom kv) with
      | none => rw [hfind] at hcell; exact absurd rfl hcell
      | some me =>
        rw [hfind, Option.bind_some] at hcell
        obtain ⟨c, hvar⟩ := Option.ne_none_iff_exists'.mp hcell
        dsimp only
        rw [hfind]
        dsimp only
        rw [hvar]
    have hok' : ∀ kv' ∈ kvs, JS_NewAtom interned (utf8 kv'.1) = some (atom kv') ∧
        cell (m.setExport interned kv).export_entries (atom kv') ≠ none := by
      intro kv' hkv'
      obtain ⟨hf, hc⟩ := hok kv' (List.mem_cons_of_mem _ hkv')
      refine ⟨hf, ?_⟩
      rw [hspec]
      split_ifs
      · simp
      · exact hc
    obtain ⟨hm, hb⟩ := ih hok' hnodup.2
    refine ⟨hm.trans hmissed, ?_⟩
    intro kv' hkv'
    rcases List.mem_cons.mp hkv' with rfl | hkv'
    · -- No later property has the same name.
      have hstay : cell (setExports interned (m.setExport interned kv') kvs).export_entries
          (atom kv') = cell (m.setExport interned kv').export_entries (atom kv') := by
        have hne : cell (setExports interned (m.setExport interned kv') kvs).export_entries
            (atom kv') ≠ none := by
          rw [ne_eq, (setExports_frame interned _ kvs).2.2.2.2, hspec,
            if_pos ⟨hatom, hcell⟩]
          simp
        obtain ⟨c, hc⟩ := Option.ne_none_iff_exists'.mp hne
        rcases setExports_origin hc with hold | ⟨kv, hkv, hother, -⟩
        · rw [hc, hold]
        · have hsame := (hok kv (List.mem_cons_of_mem _ hkv)).1.symm.trans hother
          exact absurd (List.mem_map.mpr ⟨kv, hkv, Option.some_inj.mp hsame⟩) hnodup.1
      change cell (setExports interned (m.setExport interned kv') kvs).export_entries
        (atom kv') = some kv'.2.jsValue
      rw [hstay, hspec, if_pos ⟨hatom, hcell⟩]
    · exact hb kv' hkv'

theorem load_eq (m : JSModule) (interned : AtomTable) :
    m.load swift interned
      = { setExports interned m (swift.order m.properties) with loaded := true } := rfl

theorem coherent_load {m : JSModule} (h : Coherent swift m) (hcreated : m.func_created = true)
    (interned : AtomTable) : Coherent swift (m.load swift interned) := by
  rw [load_eq]
  obtain ⟨hprops, hfunc, hnext, -, -⟩ := setExports_frame interned m (swift.order m.properties)
  constructor
  · dsimp only
    rw [hprops]
    exact h.keys
  · dsimp only
    rw [hprops, hnext]
    exact h.built
  · dsimp only
    rw [hprops]
    exact h.distinct
  · intro u f hu
    dsimp only at hu ⊢
    rw [hnext]
    rcases setExports_origin hu with hold | ⟨kv, hkv, -, hc⟩
    · exact h.stored u f hold
    · cases hval : kv.2 with
      | function n g =>
        rw [hval] at hc
        injection hc with hc
        rw [hc]
        exact h.built kv ((swift.order_perm _).mem_iff.mp hkv) n g hval
      | combine children =>
        rw [hval] at hc
        exact absurd hc (by simp [JSModuleProperty.jsValue])
  · intro hl
    exact absurd hl (by simp)
  · intro _
    dsimp only
    rw [hfunc]
    exact hcreated

/-- No step breaks the bookkeeping. -/
theorem coherent_step (m : JSModule) (a : Step) (h : Coherent swift m) :
    Coherent swift (step swift m a) := by
  cases a with
  | function interned name => exact coherent_function h interned name
  | instantiate =>
    rw [step]
    split_ifs with hcreated
    · exact h
    · have hload : m.loaded = false := by
        rw [Bool.eq_false_iff]
        exact fun hl => hcreated (h.created hl)
      refine ⟨h.keys, h.built, h.distinct, ?_, ?_, fun _ => rfl⟩
      · intro u f hu
        exact absurd (cell_createCells hu) (by simp)
      · intro _ u c hu
        exact cell_createCells hu
  | evaluate interned =>
    rw [step]
    split_ifs with hif
    · rw [Bool.and_eq_true] at hif
      exact coherent_load h hif.1 interned
    · exact h

/-! ## One step -/

/-- The new function is in no cell, so it cannot be registered after `load()`. -/
theorem unloaded_of_agrees_function {m : JSModule} (hw : Coherent swift m) {interned : AtomTable}
    {name : List Char} (hag : Agrees (m.function swift interned name)) : m.loaded = false := by
  have hnew : ∃ k, (k, JSModuleProperty.function name m.next)
      ∈ (m.function swift interned name).properties := by
    change ∃ k, _ ∈ swift.set m.properties name (.function name m.next)
    by_cases hp : swift.HasKey m.properties name
    · obtain ⟨l, k, v, r, -, -, hset⟩ := set_of_present (.function name m.next) hp
      exact ⟨k, by rw [hset]; simp⟩
    · exact ⟨name, by rw [set_of_new _ hp]; simp⟩
  rw [Bool.eq_false_iff]
  intro hl
  obtain ⟨k, hk⟩ := hnew
  obtain ⟨n, f, hf, hstored⟩ := hag.bound hl _ hk
  injection hf with _ hf
  have hcell : cell (m.function swift interned name).export_entries (utf16 k)
      = cell m.export_entries (utf16 k) := cell_addExport _ interned name _
  rw [hcell] at hstored
  have := hw.stored _ f hstored
  omega

/-- The key is there already: the engine must not add an entry. -/
theorem perm_addExport_present {m : JSModule} {keys : List (List UInt16)}
    (h : (names m.export_entries).Perm keys) (interned : AtomTable) (name : List Char) :
    (names (m.addExport interned name).export_entries).Perm keys ↔
      ∀ a, JS_NewAtom interned (utf8 name) = some a → a ∈ names m.export_entries := by
  rw [names_addExport]
  cases hatom : JS_NewAtom interned (utf8 name) with
  | none => exact iff_of_true h (by simp)
  | some a =>
    dsimp only
    by_cases hmem : a ∈ names m.export_entries
    · rw [if_pos hmem]
      exact iff_of_true h (fun b hb => Option.some_inj.mp hb ▸ hmem)
    · rw [if_neg hmem]
      refine iff_of_false (fun hperm => ?_) (fun hall => hmem (hall a rfl))
      have hlen := hperm.length_eq
      have := h.length_eq
      rw [List.length_append, List.length_singleton] at hlen
      omega

/-- The key is new: the engine must add an entry for it. -/
theorem perm_addExport_new {m : JSModule} {keys : List (List UInt16)} {key : List UInt16}
    (h : (names m.export_entries).Perm keys) (hfresh : key ∉ keys) (interned : AtomTable)
    (name : List Char) :
    (names (m.addExport interned name).export_entries).Perm (keys ++ [key]) ↔
      JS_NewAtom interned (utf8 name) = some key := by
  have hfewer : ¬ (names m.export_entries).Perm (keys ++ [key]) := by
    intro hperm
    have hlen := hperm.length_eq
    have := h.length_eq
    rw [List.length_append, List.length_singleton] at hlen
    omega
  rw [names_addExport]
  cases hatom : JS_NewAtom interned (utf8 name) with
  | none => exact iff_of_false hfewer (by simp)
  | some a =>
    dsimp only
    by_cases hmem : a ∈ names m.export_entries
    · rw [if_pos hmem]
      refine iff_of_false hfewer ?_
      rw [Option.some_inj]
      rintro rfl
      exact hfresh (h.mem_iff.mp hmem)
    · rw [if_neg hmem, Option.some_inj]
      constructor
      · intro hperm
        have hcancel := (h.symm.append_right _).trans hperm
        have := (List.perm_append_left_iff _).mp hcancel
        simpa using this
      · rintro rfl
        exact h.append_right _

/-- A registration keeps the two sides together exactly under its condition. -/
theorem agrees_function_iff {m : JSModule} (hw : Coherent swift m) (h : Agrees m)
    (interned : AtomTable) (name : List Char) :
    Agrees (m.function swift interned name) ↔ StepOk swift m (.function interned name) := by
  have hnext : Agrees (m.function swift interned name) ↔ m.loaded = false ∧
      (names (m.addExport interned name).export_entries).Perm
        ((swift.set m.properties name (.function name m.next)).map (fun kv => utf16 kv.1)) := by
    constructor
    · intro hag
      exact ⟨unloaded_of_agrees_function hw hag, hag.entries⟩
    · rintro ⟨hl, hperm⟩
      exact ⟨hperm, h.found, fun hl' => absurd hl' (by rw [show
        (m.function swift interned name).loaded = m.loaded from rfl, hl]; simp)⟩
  rw [hnext, StepOk]
  refine and_congr_right fun _ => ?_
  by_cases hp : swift.HasKey m.properties name
  · obtain ⟨l, k, v, r, hd, -, hset⟩ := set_of_present (.function name m.next) hp
    have hkeys : (swift.set m.properties name (.function name m.next)).map
        (fun kv => utf16 kv.1) = m.properties.map (fun kv => utf16 kv.1) := by
      rw [hset, hd, List.map_append, List.map_append, List.map_cons, List.map_cons]
    rw [if_pos hp, hkeys]
    exact perm_addExport_present h.entries interned name
  · have hfresh : utf16 name ∉ m.properties.map (fun kv => utf16 kv.1) := by
      intro hmem
      obtain ⟨kv, hkv, heq⟩ := List.mem_map.mp hmem
      exact hp ⟨kv, hkv, by rw [utf16_injective heq]⟩
    rw [if_neg hp, set_of_new _ hp, List.map_append, Faithful]
    exact perm_addExport_new h.entries hfresh interned name

/-- Evaluating the module keeps the two sides together exactly under its condition. -/
theorem agrees_evaluate_iff {m : JSModule} (hw : Coherent swift m) (h : Agrees m)
    (interned : AtomTable) :
    Agrees (step swift m (.evaluate interned)) ↔ StepOk swift m (.evaluate interned) := by
  rw [step, StepOk]
  by_cases hrun : m.func_created = true ∧ m.loaded = false
  swap
  · rw [if_neg (by simpa using hrun)]
    exact iff_of_true h (fun hc hl => absurd ⟨hc, hl⟩ hrun)
  obtain ⟨hc, hl⟩ := hrun
  rw [if_pos (by simp [hc, hl]), load_eq]
  obtain ⟨hprops, -, -, hnames, hcells⟩ := setExports_frame interned m (swift.order m.properties)
  have hmem : ∀ kv, kv ∈ swift.order m.properties ↔ kv ∈ m.properties :=
    fun kv => (swift.order_perm _).mem_iff
  constructor
  · intro hag _ _ kv hkv
    obtain ⟨n, f, hf, hcell⟩ := hag.bound rfl kv (by dsimp only; rw [hprops]; exact hkv)
    dsimp only at hcell
    refine ⟨⟨n, f, hf⟩, ?_, ?_⟩
    · -- The function of this property came into the cell through its own atom.
      rcases setExports_origin hcell with hold | ⟨kv', hkv', hatom, hval⟩
      · exact absurd (hw.empty hl _ _ hold) (by simp)
      · cases hkv'' : kv'.2 with
        | function n' f' =>
          rw [hkv''] at hval
          injection hval with hval
          have hsame := hw.distinct kv hkv kv' ((hmem kv').mp hkv') n n' f hf (by rw [hkv'', hval])
          rw [hsame]
          rw [hsame] at hatom
          exact hatom
        | combine children =>
          rw [hkv''] at hval
          exact absurd hval (by simp [JSModuleProperty.jsValue])
    · rw [ne_eq, ← hcells, hcell]
      simp
  · intro hok
    have hok' := hok hc hl
    have hnodup : ((swift.order m.properties).map (fun kv => utf16 kv.1)).Nodup :=
      ((swift.order_perm _).map _).nodup_iff.mpr (utf16_keys_nodup hw.keys)
    obtain ⟨hmissed, hbound⟩ := @setExports_bound interned m _ (fun kv => utf16 kv.1)
      (fun kv hkv => (hok' kv ((hmem kv).mp hkv)).2) hnodup
    refine ⟨?_, hmissed.trans h.found, ?_⟩
    · dsimp only
      rw [hnames, hprops]
      exact h.entries
    · intro _ kv hkv
      dsimp only at hkv ⊢
      rw [hprops] at hkv
      obtain ⟨⟨n, f, hf⟩, -, -⟩ := hok' kv hkv
      refine ⟨n, f, hf, ?_⟩
      rw [hbound kv ((hmem kv).mpr hkv), hf]
      rfl

/-- **One step** keeps the two sides together exactly if it meets its condition. -/
theorem agrees_step_iff (m : JSModule) (a : Step) (hw : Coherent swift m) (h : Agrees m) :
    Agrees (step swift m a) ↔ StepOk swift m a := by
  cases a with
  | function interned name => exact agrees_function_iff hw h interned name
  | instantiate =>
    refine iff_of_true ?_ trivial
    rw [step]
    split_ifs with hcreated
    · exact h
    · refine ⟨?_, h.found, fun hl => absurd (hw.created hl) hcreated⟩
      dsimp only
      rw [names_createCells]
      exact h.entries
  | evaluate interned => exact agrees_evaluate_iff hw h interned

/-! ## The first state -/

/-- The dictionary holds properties of the builder, each under its own name. -/
theorem builderProperties_spec (swift : Stdlib) (property : JSModuleProperty) :
    swift.KeysNodup (builderProperties swift property) ∧
      ∀ kv ∈ builderProperties swift property, kv.2 ∈ topLevel property ∧
        swift.normalize kv.1 = swift.normalize kv.2.name := by
  cases property with
  | function n f =>
    refine ⟨by simp [builderProperties, KeysNodup], ?_⟩
    intro kv hkv
    rw [List.mem_singleton.mp hkv]
    exact ⟨List.mem_singleton.mpr rfl, rfl⟩
  | combine children =>
    exact Stdlib.foldl_set_spec JSModuleProperty.name children

/-- The `addExport` calls of `JSModule.init`. -/
def addExports (interned : AtomTable) (m : JSModule) (kvs : Dictionary JSModuleProperty) : JSModule :=
  kvs.foldl (fun m kv => m.addExport interned kv.1) m

theorem addExports_frame (interned : AtomTable) (m : JSModule) (kvs : Dictionary JSModuleProperty) :
    { addExports interned m kvs with export_entries := m.export_entries } = m ∧
      ∀ u, cell (addExports interned m kvs).export_entries u = cell m.export_entries u := by
  induction kvs generalizing m with
  | nil => exact ⟨rfl, fun _ => rfl⟩
  | cons kv kvs ih =>
    obtain ⟨hframe, hcell⟩ := ih (m.addExport interned kv.1)
    refine ⟨?_, fun u => (hcell u).trans (cell_addExport m interned kv.1 u)⟩
    have := congrArg (fun x : JSModule => { x with export_entries := m.export_entries }) hframe
    exact this

/-- The entries are among the atoms of the names. -/
theorem names_addExports_sublist (interned : AtomTable) (m : JSModule) (kvs : Dictionary JSModuleProperty) :
    ∃ new, names (addExports interned m kvs).export_entries = names m.export_entries ++ new ∧
      new.Sublist (kvs.filterMap (fun kv => JS_NewAtom interned (utf8 kv.1))) := by
  induction kvs generalizing m with
  | nil => exact ⟨[], by rw [List.append_nil]; rfl, List.Sublist.refl _⟩
  | cons kv kvs ih =>
    obtain ⟨new, heq, hsub⟩ := ih (m.addExport interned kv.1)
    have hadd := names_addExport m interned kv.1
    rw [List.filterMap_cons]
    cases hatom : JS_NewAtom interned (utf8 kv.1) with
    | none =>
      rw [hatom] at hadd
      exact ⟨new, heq.trans (by rw [hadd]), hsub⟩
    | some a =>
      rw [hatom] at hadd
      dsimp only at hadd ⊢
      by_cases hmem : a ∈ names m.export_entries
      · rw [if_pos hmem] at hadd
        exact ⟨new, heq.trans (by rw [hadd]), hsub.cons a⟩
      · rw [if_neg hmem] at hadd
        refine ⟨a :: new, heq.trans ?_, hsub.cons_cons a⟩
        rw [hadd, List.append_assoc, List.singleton_append]

/-- Names with different atoms become the entries. -/
theorem names_addExports_of_atoms {interned : AtomTable} {m : JSModule}
    {kvs : Dictionary JSModuleProperty} {atom : List Char × JSModuleProperty → List UInt16}
    (hatom : ∀ kv ∈ kvs, JS_NewAtom interned (utf8 kv.1) = some (atom kv))
    (hnodup : (names m.export_entries ++ kvs.map atom).Nodup) :
    names (addExports interned m kvs).export_entries = names m.export_entries ++ kvs.map atom := by
  induction kvs generalizing m with
  | nil => rw [List.map_nil, List.append_nil]; rfl
  | cons kv kvs ih =>
    have hadd := names_addExport m interned kv.1
    have hfresh : atom kv ∉ names m.export_entries := by
      intro hmem
      exact (List.nodup_append.mp hnodup).2.2 _ hmem _ (by simp) rfl
    rw [hatom kv List.mem_cons_self] at hadd
    dsimp only at hadd
    rw [if_neg hfresh] at hadd
    have hcons : names m.export_entries ++ (kv :: kvs).map atom
        = names (m.addExport interned kv.1).export_entries ++ kvs.map atom := by
      rw [hadd, List.append_assoc, List.singleton_append, List.map_cons]
    rw [hcons] at hnodup ⊢
    exact ih (fun kv' hkv' => hatom kv' (List.mem_cons_of_mem _ hkv')) hnodup

theorem init_eq (swift : Stdlib) (interned : AtomTable) (builder : Builder) :
    JSModule.init swift interned builder
      = addExports interned ⟨builderProperties swift builder.property, [], false, false, false,
          builder.next⟩ (swift.order (builderProperties swift builder.property)) := rfl

/-- What `JSModule.init` leaves. -/
theorem init_fields (swift : Stdlib) (interned : AtomTable) (builder : Builder) :
    (JSModule.init swift interned builder).properties
        = builderProperties swift builder.property ∧
      (JSModule.init swift interned builder).loaded = false ∧
      (JSModule.init swift interned builder).missed = false ∧
      (JSModule.init swift interned builder).next = builder.next ∧
      ∀ u, cell (JSModule.init swift interned builder).export_entries u = none := by
  rw [init_eq]
  obtain ⟨hframe, hcell⟩ := addExports_frame interned
    ⟨builderProperties swift builder.property, [], false, false, false, builder.next⟩
    (swift.order (builderProperties swift builder.property))
  injection hframe with hprops _ _ hloaded hmissed hnext
  exact ⟨hprops, hloaded, hmissed, hnext, fun u => (hcell u).trans rfl⟩

/-- The bookkeeping is right from the start. -/
theorem coherent_init (swift : Stdlib) (interned : AtomTable) (builder : Builder) :
    Coherent swift (JSModule.init swift interned builder) := by
  obtain ⟨hprops, hloaded, -, hnext, hcell⟩ := init_fields swift interned builder
  obtain ⟨hkeys, hmem⟩ := builderProperties_spec swift builder.property
  constructor
  · rw [hprops]
    exact hkeys
  · intro kv hkv n f hf
    rw [hprops] at hkv
    rw [hnext]
    exact builder.built n f (hf ▸ (hmem kv hkv).1)
  · -- One function has one name, and one name has one key.
    intro kv hkv kv' hkv' n n' f hf hf'
    rw [hprops] at hkv hkv'
    obtain ⟨htop, hname⟩ := hmem kv hkv
    obtain ⟨htop', hname'⟩ := hmem kv' hkv'
    rw [hf] at htop hname
    rw [hf'] at htop' hname'
    have hn : n = n' := builder.named n n' f htop htop'
    apply List.inj_on_of_nodup_map hkeys hkv hkv'
    rw [hname, hname', hn]
  · intro u f hu
    rw [hcell u] at hu
    exact absurd hu (by simp)
  · intro _ u c hu
    rw [hcell u] at hu
    exact absurd hu (by simp)
  · intro hl
    rw [hloaded] at hl
    exact absurd hl (by simp)

/-- Lists that are each other's permutation, and never longer at a position, are equal. -/
theorem eq_of_perm_of_length {α β : Type} {l : List α} {f g : α → List β}
    (hperm : (l.map f).Perm (l.map g))
    (hlong : ∀ x ∈ l, f x = g x ∨ (g x).length < (f x).length) : ∀ x ∈ l, f x = g x := by
  intro x hx
  rcases hlong x hx with heq | hlt
  · exact heq
  have hsum : (l.map (fun x => (f x).length)).sum = (l.map (fun x => (g x).length)).sum := by
    have := (hperm.map List.length).sum_eq
    rwa [List.map_map, List.map_map] at this
  have hless : (l.map (fun x => (g x).length)).sum < (l.map (fun x => (f x).length)).sum := by
    refine List.sum_lt_sum _ _ (fun y hy => ?_) ⟨x, hx, hlt⟩
    rcases hlong y hy with heq | hlt
    · rw [heq]
    · exact hlt.le
  omega

/-- A new module's entries are its keys exactly if the engine's atom for every key is the
key. -/
theorem agrees_init_iff (swift : Stdlib) (interned : AtomTable) (builder : Builder) :
    Agrees (JSModule.init swift interned builder) ↔
      ∀ kv ∈ builderProperties swift builder.property, Faithful interned kv.1 := by
  obtain ⟨hprops, hloaded, hmissed, -, -⟩ := init_fields swift interned builder
  have hkeys := (builderProperties_spec swift builder.property).1
  set d := builderProperties swift builder.property with hd
  have horder : (swift.order d).Perm d := swift.order_perm d
  constructor
  · intro hag
    have hentries := hag.entries
    obtain ⟨new, heq, hsub⟩ := names_addExports_sublist interned
      ⟨d, [], false, false, false, builder.next⟩ (swift.order d)
    rw [← init_eq, show names ([] : List JSExportEntry) = [] from rfl, List.nil_append] at heq
    rw [heq, hprops] at hentries
    -- As many entries as keys: every key has its atom, and every atom became an entry.
    have hlen : new.length = (swift.order d).length := by
      rw [hentries.length_eq, List.length_map, horder.length_eq]
    have hfull : ((swift.order d).filterMap (fun kv => JS_NewAtom interned (utf8 kv.1))).length
        = (swift.order d).length :=
      le_antisymm (List.length_filterMap_le _ _) (hlen ▸ hsub.length_le)
    have hsome := List.filterMap_length_eq_length.mp hfull
    have hnew : new = (swift.order d).map (fun kv => (JS_NewAtom interned (utf8 kv.1)).getD []) := by
      rw [hsub.eq_of_length (hlen.trans hfull.symm), ← List.filterMap_eq_map]
      apply List.filterMap_congr
      intro kv hkv
      obtain ⟨a, ha⟩ := Option.isSome_iff_exists.mp (hsome kv hkv)
      rw [ha, Function.comp_apply, ha]
      rfl
    have hperm := hentries.trans (horder.map (fun kv => utf16 kv.1)).symm
    rw [hnew] at hperm
    -- No atom holds a zero, so no key does.
    have hzero : ∀ kv ∈ swift.order d, '\x00' ∉ kv.1 := by
      intro kv hkv hnul
      obtain ⟨kv', hkv', heq'⟩ := List.mem_map.mp
        (hperm.mem_iff.mpr (List.mem_map.mpr ⟨kv, hkv, rfl⟩))
      obtain ⟨a, ha⟩ := Option.isSome_iff_exists.mp (hsome kv' hkv')
      rw [ha, Option.getD_some] at heq'
      apply (JS_NewAtom_cases ha).1
      rw [heq']
      exact List.mem_flatMap.mpr ⟨'\x00', hnul, by decide⟩
    have hall := eq_of_perm_of_length hperm (by
      intro kv hkv
      obtain ⟨a, ha⟩ := Option.isSome_iff_exists.mp (hsome kv hkv)
      rw [ha, Option.getD_some]
      exact (JS_NewAtom_cases ha).2 (hzero kv hkv))
    intro kv hkv
    have hkv' := horder.mem_iff.mpr hkv
    obtain ⟨a, ha⟩ := Option.isSome_iff_exists.mp (hsome kv hkv')
    have := hall kv hkv'
    rw [ha, Option.getD_some] at this
    rw [Faithful, ha, this]
  · intro hf
    refine ⟨?_, hmissed, fun hl => absurd hl (by rw [hloaded]; simp)⟩
    have hnodup : ((swift.order d).map (fun kv => utf16 kv.1)).Nodup :=
      (horder.map _).nodup_iff.mpr (utf16_keys_nodup hkeys)
    have hnames := @names_addExports_of_atoms interned
      ⟨d, [], false, false, false, builder.next⟩ (swift.order d) (fun kv => utf16 kv.1)
      (fun kv hkv => hf kv (horder.mem_iff.mp hkv)) hnodup
    rw [init_eq, ← hd, hnames, ← init_eq, hprops]
    exact horder.map _

/-! ## Whole runs -/

/-- **Properties and exports agree** in every state of a run exactly if the engine's atom
for every builder property's name is the name and every later step meets its condition:
no registration after `load()`, no repeated registration that adds an entry, and no
property without a cell when `load()` runs. -/
theorem exports_agree_iff (swift : Stdlib) (interned : AtomTable) (builder : Builder)
    (steps : List Step) :
    Run.Always (step swift) Agrees (JSModule.init swift interned builder) steps ↔
      (∀ kv ∈ builderProperties swift builder.property, Faithful interned kv.1) ∧
        Run.Meets (step swift) (StepOk swift) (JSModule.init swift interned builder) steps := by
  rw [Run.always_iff_meets coherent_step agrees_step_iff (coherent_init swift interned builder),
    agrees_init_iff]

/-- A library that compares strings scalar by scalar and enumerates in order of insertion. -/
def insertionOrder : Stdlib := ⟨id, id, Stdlib.perm_id⟩

/-- A builder with the one function `f`. -/
def builderOfF : Builder where
  property := .function ['f'] 0
  next := 1
  built := by
    intro n f h
    injection List.mem_singleton.mp h with _ hf
    omega
  named := by
    intro n n' f h h'
    injection List.mem_singleton.mp h with hn
    injection List.mem_singleton.mp h' with hn'
    rw [hn, hn']

/-- Registering `f` anew after the module has been imported: the dictionary has the new
function, the cell keeps the old one. -/
theorem function_after_load_unbound :
    ¬ Run.Always (step insertionOrder) Agrees (JSModule.init insertionOrder [] builderOfF)
      [.instantiate, .evaluate [], .function [] ['f']] := by
  intro h
  have hlast : Agrees (Run.exec (step insertionOrder)
      (JSModule.init insertionOrder [] builderOfF)
      [.instantiate, .evaluate [], .function [] ['f']]) := h.last
  have hcell : cell (Run.exec (step insertionOrder) (JSModule.init insertionOrder [] builderOfF)
      [.instantiate, .evaluate [], .function [] ['f']]).export_entries (utf16 ['f'])
      = some (.function 0) := by decide +kernel
  obtain ⟨n, f, hf, hbound⟩ := hlast.bound (by decide +kernel) (['f'], .function ['f'] 1)
    (List.mem_singleton.mpr rfl)
  rw [hcell] at hbound
  injection hf with _ hf
  injection hbound with hbound
  injection hbound with hbound
  omega

end QuickJSSwift.ModuleExports
