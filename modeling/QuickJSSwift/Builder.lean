/-
`@ModuleBuilder` blocks and the exports of the module that is made of them
(`JSModule.swift`).

`ModuleBuilder.buildBlock` wraps its components into one property. A helper that is
itself a `@ModuleBuilder` puts such a block inside another, so what a builder returns is a
tree with functions at its leaves. Three traversals read the tree: `JSModule.init` takes
the children of the outermost block into its dictionary, `add(toContext:)` goes down to
every leaf, and `load()` exports what is in the dictionary. The first does not look into a
nested block: it stores the block itself, under the name `<DUMY>`.

`exports_leaves_iff` says for which trees the module exports its leaves all the same, for
every tree, any names and any state of the atom table when the names are registered and
when they are loaded. Names are compared as Swift compares strings.
-/
import QuickJSSwift.ModuleExports
import QuickJSSwift.Global
import Mathlib.Data.List.Induction

set_option autoImplicit false

namespace QuickJSSwift.ModuleExports

open Utf Text ModuleDef Stdlib

/-! ## Traversals -/

/-- The leaves of a tree, left to right: the name and the function of each. -/
def JSModuleProperty.leaves : JSModuleProperty → List (List Char × ℕ)
  | .function n f => [(n, f)]
  | .combine children => leavesOf children
where
  leavesOf : List JSModuleProperty → List (List Char × ℕ)
    | [] => []
    | child :: children => child.leaves ++ leavesOf children

/-- `add(toContext:)`: the functions it builds. -/
def JSModuleProperty.add : JSModuleProperty → List ℕ
  | .function _ f => [f]
  | .combine children => addAll children
where
  addAll : List JSModuleProperty → List ℕ
    | [] => []
    | child :: children => child.add ++ addAll children

/-- The functions that `JSModule.init` builds. -/
def initAdds (swift : Stdlib) (property : JSModuleProperty) : List ℕ :=
  (swift.order (builderProperties swift property)).flatMap (fun kv => kv.2.add)

/-- The last of some named things that has the name. -/
def lastNamed {α : Type} (swift : Stdlib) (name : α → List Char) (l : List α) (n : List Char) :
    Option α :=
  (l.filter (fun a => decide (swift.normalize (name a) = swift.normalize n))).getLast?

/-- A leaf as a property. -/
def leaf (l : List Char × ℕ) : JSModuleProperty := .function l.1 l.2

/-- A tree of properties; one function belongs to one object, which has one name. -/
structure Tree where
  property : JSModuleProperty
  next : ℕ
  built : ∀ l ∈ property.leaves, l.2 < next
  named : ∀ l ∈ property.leaves, ∀ l' ∈ property.leaves, l.2 = l'.2 → l.1 = l'.1

theorem mem_leavesOf {children : List JSModuleProperty} {child : JSModuleProperty}
    (h : child ∈ children) {l : List Char × ℕ} (hl : l ∈ child.leaves) :
    l ∈ JSModuleProperty.leaves.leavesOf children := by
  induction children with
  | nil => exact absurd h List.not_mem_nil
  | cons c children ih =>
    rw [JSModuleProperty.leaves.leavesOf]
    rcases List.mem_cons.mp h with rfl | h
    · exact List.mem_append_left _ hl
    · exact List.mem_append_right _ (ih h)

/-- A function among the children is a leaf. -/
theorem mem_leaves_of_topLevel {property : JSModuleProperty} {n : List Char} {f : ℕ}
    (h : .function n f ∈ topLevel property) : (n, f) ∈ property.leaves := by
  cases property with
  | function n' f' =>
    injection List.mem_singleton.mp h with hn hf
    rw [hn, hf]
    exact List.mem_singleton.mpr rfl
  | combine children =>
    exact mem_leavesOf h (List.mem_singleton.mpr rfl)

/-- The tree as what `JSModule.init` gets. -/
def Tree.builder (t : Tree) : Builder where
  property := t.property
  next := t.next
  built := fun _ _ h => t.built _ (mem_leaves_of_topLevel h)
  named := fun _ _ _ h h' =>
    t.named _ (mem_leaves_of_topLevel h) _ (mem_leaves_of_topLevel h') rfl

/-- The module a tree makes. -/
def Tree.module (swift : Stdlib) (interned : AtomTable) (t : Tree) : JSModule :=
  JSModule.init swift interned t.builder

/-- The module once the engine has created its cells and called `load()`. -/
def Tree.loaded (swift : Stdlib) (interned interned' : AtomTable) (t : Tree) : JSModule :=
  Run.exec (step swift) (t.module swift interned) [.instantiate, .evaluate interned']

/-! ## What the module owes the tree -/

/-- The exports are the names of the leaves, each once; the last leaf of every exported
name has been built; and after `load()` the name is bound to its function. -/
structure ExportsLeaves (swift : Stdlib) (interned interned' : AtomTable) (t : Tree) : Prop where
  nodup : (names (t.module swift interned).export_entries).Nodup
  distinct : ∀ n n', utf16 n ∈ names (t.module swift interned).export_entries →
    utf16 n' ∈ names (t.module swift interned).export_entries →
    swift.normalize n = swift.normalize n' → n = n'
  only : ∀ u ∈ names (t.module swift interned).export_entries,
    ∃ n, u = utf16 n ∧ ∃ l ∈ t.property.leaves, swift.normalize l.1 = swift.normalize n
  all : ∀ l ∈ t.property.leaves, ∃ n, utf16 n ∈ names (t.module swift interned).export_entries ∧
    swift.normalize l.1 = swift.normalize n
  built : ∀ n l, utf16 n ∈ names (t.module swift interned).export_entries →
    lastNamed swift Prod.fst t.property.leaves n = some l → l.2 ∈ initAdds swift t.property
  bound : ∀ n l, utf16 n ∈ names (t.module swift interned).export_entries →
    lastNamed swift Prod.fst t.property.leaves n = some l →
    cell (t.loaded swift interned interned').export_entries (utf16 n) = some (.function l.2)

/-- For every name, the last child of the outermost block that has it is the last leaf
that has it. A nested block is a child called `<DUMY>`. -/
def LastIsChild (swift : Stdlib) (property : JSModuleProperty) : Prop :=
  ∀ n, lastNamed swift JSModuleProperty.name (topLevel property) n
    = (lastNamed swift Prod.fst property.leaves n).map leaf

/-- The engine's atom for every key at `load()` is the key, as Swift compares strings, and
the atoms at registration were the same ones. -/
def NamesKept (swift : Stdlib) (interned interned' : AtomTable) (property : JSModuleProperty) :
    Prop :=
  (∀ kv ∈ builderProperties swift property, ∃ n,
      JS_NewAtom interned' (utf8 kv.1) = some (utf16 n) ∧
        swift.normalize n = swift.normalize kv.1) ∧
    ((builderProperties swift property).map (fun kv => JS_NewAtom interned (utf8 kv.1))).Perm
      ((builderProperties swift property).map (fun kv => JS_NewAtom interned' (utf8 kv.1)))

/-! ## The last of a name -/

section LastNamed

variable {α : Type} {swift : Stdlib} {name : α → List Char} {l : List α}

theorem lastNamed_congr {n n' : List Char} (h : swift.normalize n = swift.normalize n') :
    lastNamed swift name l n = lastNamed swift name l n' := by
  unfold lastNamed
  rw [h]

theorem mem_of_lastNamed {n : List Char} {a : α} (h : lastNamed swift name l n = some a) :
    a ∈ l ∧ swift.normalize (name a) = swift.normalize n := by
  have hmem := List.mem_filter.mp (List.mem_of_getLast? h)
  exact ⟨hmem.1, of_decide_eq_true hmem.2⟩

theorem exists_lastNamed {n : List Char} {a : α} (ha : a ∈ l)
    (hname : swift.normalize (name a) = swift.normalize n) :
    ∃ b, lastNamed swift name l n = some b := by
  have hmem : a ∈ l.filter (fun a => decide (swift.normalize (name a) = swift.normalize n)) :=
    List.mem_filter.mpr ⟨ha, decide_eq_true hname⟩
  exact Option.ne_none_iff_exists'.mp fun hnone =>
    List.ne_nil_of_mem hmem (List.getLast?_eq_none_iff.mp hnone)

theorem lastNamed_append (l : List α) (a : α) (n : List Char) :
    lastNamed swift name (l ++ [a]) n =
      if swift.normalize (name a) = swift.normalize n then some a
      else lastNamed swift name l n := by
  unfold lastNamed
  rw [List.filter_append]
  split_ifs with h
  · simp [h]
  · simp [h]

/-- A dictionary filled with named things holds, for every name, the last one that has it,
under the name of some of them. -/
theorem foldl_set_last (l : List α) :
    (∀ kv ∈ l.foldl (fun d a => swift.set d (name a) a) [],
        lastNamed swift name l kv.1 = some kv.2 ∧ ∃ a ∈ l, kv.1 = name a) ∧
      ∀ n a, lastNamed swift name l n = some a →
        ∃ kv ∈ l.foldl (fun d a => swift.set d (name a) a) [],
          swift.normalize kv.1 = swift.normalize n ∧ kv.2 = a := by
  induction l using List.reverseRecOn with
  | nil => exact ⟨by simp, fun n a h => absurd h (by simp [lastNamed])⟩
  | append_singleton l a ih =>
    have hkeys := (@Stdlib.foldl_set_spec α swift name l).1
    rw [List.foldl_append, List.foldl_cons, List.foldl_nil]
    set d := l.foldl (fun d a => swift.set d (name a) a) []
    refine ⟨fun kv hkv => ⟨?_, ?_⟩, fun n b hb => ?_⟩
    · rw [lastNamed_append]
      rcases Stdlib.mem_set hkeys hkv with ⟨hold, hne⟩ | ⟨hnew, hkey⟩
      · rw [if_neg (fun heq => hne heq.symm)]
        exact (ih.1 kv hold).1
      · rw [if_pos hkey.symm, hnew]
    · rcases Stdlib.key_of_mem_set hkv with ⟨v, hold⟩ | hnew
      · obtain ⟨b, hb, hname⟩ := (ih.1 _ hold).2
        exact ⟨b, List.mem_append_left _ hb, hname⟩
      · exact ⟨a, List.mem_append_right _ (List.mem_singleton.mpr rfl), hnew⟩
    · rw [lastNamed_append] at hb
      split_ifs at hb with h
      · obtain ⟨kv, hkv, hval, hkey⟩ := @Stdlib.exists_mem_set α swift d (name a) a
        exact ⟨kv, hkv, hkey.trans h, hval.trans (Option.some_inj.mp hb)⟩
      · obtain ⟨kv, hkv, hkey, hval⟩ := ih.2 n b hb
        refine ⟨kv, Stdlib.mem_set_of_ne a hkv ?_, hkey, hval⟩
        rw [hkey]
        exact fun heq => h heq.symm

end LastNamed

variable {swift : Stdlib}

/-- The dictionary of a module holds the last child of every name. -/
theorem builderProperties_last (property : JSModuleProperty) :
    (∀ kv ∈ builderProperties swift property,
        lastNamed swift JSModuleProperty.name (topLevel property) kv.1 = some kv.2 ∧
          ∃ c ∈ topLevel property, kv.1 = c.name) ∧
      ∀ n c, lastNamed swift JSModuleProperty.name (topLevel property) n = some c →
        ∃ kv ∈ builderProperties swift property,
          swift.normalize kv.1 = swift.normalize n ∧ kv.2 = c := by
  have hfold : builderProperties swift property
      = (topLevel property).foldl (fun d obj => swift.set d obj.name obj) [] := by
    cases property <;> rfl
  rw [hfold]
  exact foldl_set_last (topLevel property)

/-! ## Cells of a new module -/

theorem local_addExport {self : JSModule} (h : ∀ me ∈ self.export_entries, ∃ v, me.kind = .typeLocal v)
    (interned : AtomTable) (name : List Char) :
    ∀ me ∈ (self.addExport interned name).export_entries, ∃ v, me.kind = .typeLocal v := by
  unfold JSModule.addExport
  dsimp only
  rw [JS_AddModuleExport_eq]
  split
  · exact h
  · split_ifs
    · exact h
    · intro me hme
      rcases List.mem_append.mp hme with hold | hnew
      · exact h me hold
      · exact ⟨none, by rw [List.mem_singleton.mp hnew]⟩

theorem local_addExports (interned : AtomTable) (kvs : Dictionary JSModuleProperty) (m : JSModule)
    (h : ∀ me ∈ m.export_entries, ∃ v, me.kind = .typeLocal v) :
    ∀ me ∈ (addExports interned m kvs).export_entries, ∃ v, me.kind = .typeLocal v := by
  induction kvs generalizing m with
  | nil => exact h
  | cons kv kvs ih => exact ih _ (local_addExport h interned kv.1)

/-- An atom that some key has becomes an entry. -/
theorem mem_names_addExports {interned : AtomTable} {kvs : Dictionary JSModuleProperty}
    {m : JSModule} {u : List UInt16}
    (h : u ∈ names m.export_entries ∨ ∃ kv ∈ kvs, JS_NewAtom interned (utf8 kv.1) = some u) :
    u ∈ names (addExports interned m kvs).export_entries := by
  induction kvs generalizing m with
  | nil => exact h.resolve_right (by simp)
  | cons kv kvs ih =>
    apply ih
    have hadd := names_addExport m interned kv.1
    rcases h with hold | ⟨kv', hkv', hatom⟩
    · left
      rw [hadd]
      split
      · exact hold
      · split_ifs
        · exact hold
        · exact List.mem_append_left _ hold
    · rcases List.mem_cons.mp hkv' with rfl | hrest
      · left
        rw [hatom] at hadd
        dsimp only at hadd
        rw [hadd]
        split_ifs with hmem
        · exact hmem
        · exact List.mem_append_right _ (List.mem_singleton.mpr rfl)
      · exact Or.inr ⟨kv', hrest, hatom⟩

/-- The cells that are created for local entries are those of their names. -/
theorem cell_createCells_of_mem {entries : List JSExportEntry}
    (hlocal : ∀ me ∈ entries, ∃ v, me.kind = .typeLocal v) {u : List UInt16}
    (hu : u ∈ names entries) : cell (createCells entries) u = some .undefined := by
  induction entries with
  | nil => exact absurd hu List.not_mem_nil
  | cons me entries ih =>
    obtain ⟨v, hv⟩ := hlocal me List.mem_cons_self
    unfold createCells at ih ⊢
    rw [List.map_cons, cell_cons, hv]
    dsimp only
    split_ifs with hname
    · rfl
    · apply ih (fun me' hme' => hlocal me' (List.mem_cons_of_mem _ hme'))
      rcases List.mem_cons.mp hu with heq | hrest
      · exact absurd heq.symm hname
      · exact hrest

/-! ## The module of a tree -/

section Tree

variable {interned interned' : AtomTable} {t : Tree}

/-- The entries are the atoms of the keys. -/
theorem Tree.module_eq (swift : Stdlib) (interned : AtomTable) (t : Tree) :
    t.module swift interned = addExports interned
      ⟨builderProperties swift t.property, [], false, false, false, t.next⟩
      (swift.order (builderProperties swift t.property)) := rfl

theorem Tree.module_fields (swift : Stdlib) (interned : AtomTable) (t : Tree) :
    (t.module swift interned).properties = builderProperties swift t.property ∧
      (t.module swift interned).func_created = false ∧
      (t.module swift interned).loaded = false := by
  obtain ⟨hframe, -⟩ := addExports_frame interned
    ⟨builderProperties swift t.property, [], false, false, false, t.next⟩
    (swift.order (builderProperties swift t.property))
  rw [← Tree.module_eq] at hframe
  injection hframe with hprops _ hcreated hloaded
  exact ⟨hprops, hcreated, hloaded⟩

/-- The module with its cells, before `load()`. -/
def Tree.created (swift : Stdlib) (interned : AtomTable) (t : Tree) : JSModule :=
  { t.module swift interned with
    export_entries := createCells (t.module swift interned).export_entries
    func_created := true }

/-- The two steps of the engine. -/
theorem Tree.loaded_eq (swift : Stdlib) (interned interned' : AtomTable) (t : Tree) :
    (t.loaded swift interned interned').export_entries
      = (setExports interned' (t.created swift interned)
          (swift.order (builderProperties swift t.property))).export_entries := by
  obtain ⟨hprops, hcreated, hloaded⟩ := t.module_fields swift interned
  have hinst : step swift (t.module swift interned) .instantiate = t.created swift interned := by
    rw [step, hcreated]
    rfl
  have heval : step swift (t.created swift interned) (.evaluate interned')
      = (t.created swift interned).load swift interned' := by
    rw [step]
    apply if_pos
    change (true && !(t.module swift interned).loaded) = true
    rw [hloaded]
    rfl
  unfold Tree.loaded
  rw [Run.exec_cons, Run.exec_cons, hinst, heval]
  change (((t.created swift interned).load swift interned').export_entries) = _
  rw [load_eq]
  dsimp only
  rw [show (t.created swift interned).properties = builderProperties swift t.property from hprops]

/-- A created cell holds `undefined`, and there is one for every name. -/
theorem Tree.cell_created {u : List UInt16}
    (hu : u ∈ names (t.module swift interned).export_entries) :
    cell (t.created swift interned).export_entries u = some .undefined := by
  apply cell_createCells_of_mem _ hu
  rw [Tree.module_eq]
  exact local_addExports interned _ _ (by simp)

/-- The atoms at `load()` differ, as the keys do. -/
theorem NamesKept.atom_injOn (h : NamesKept swift interned interned' t.property)
    {kv kv' : List Char × JSModuleProperty} (hkv : kv ∈ builderProperties swift t.property)
    (hkv' : kv' ∈ builderProperties swift t.property)
    (heq : JS_NewAtom interned' (utf8 kv.1) = JS_NewAtom interned' (utf8 kv'.1)) : kv = kv' := by
  obtain ⟨n, hatom, hn⟩ := h.1 kv hkv
  obtain ⟨n', hatom', hn'⟩ := h.1 kv' hkv'
  rw [hatom, hatom', Option.some_inj] at heq
  apply List.inj_on_of_nodup_map (builderProperties_spec swift t.property).1 hkv hkv'
  rw [← hn, ← hn', utf16_injective heq]

/-- Where everything is kept, the exports are the atoms at `load()`. -/
theorem NamesKept.names_perm (h : NamesKept swift interned interned' t.property) :
    ((names (t.module swift interned).export_entries).map some).Perm
        ((builderProperties swift t.property).map
          (fun kv => JS_NewAtom interned' (utf8 kv.1))) ∧
      (names (t.module swift interned).export_entries).Nodup := by
  have hnodup' : ((builderProperties swift t.property).map
      (fun kv => JS_NewAtom interned' (utf8 kv.1))).Nodup := by
    apply List.Nodup.map_on _ (builderProperties_spec swift t.property).1.of_map
    exact fun kv hkv kv' hkv' heq => h.atom_injOn hkv hkv' heq
  obtain ⟨hnames, hperm⟩ := h
  set d := builderProperties swift t.property with hd
  have horder : (swift.order d).Perm d := swift.order_perm d
  have hsome : ∀ kv ∈ d, ∃ u, JS_NewAtom interned (utf8 kv.1) = some u := by
    intro kv hkv
    obtain ⟨kv', hkv', heq⟩ := List.mem_map.mp
      (hperm.mem_iff.mp (List.mem_map.mpr ⟨kv, hkv, rfl⟩))
    obtain ⟨n, hatom, -⟩ := hnames kv' hkv'
    exact ⟨utf16 n, by rw [← heq, hatom]⟩
  have hatom : ∀ kv ∈ swift.order d, JS_NewAtom interned (utf8 kv.1)
      = some ((JS_NewAtom interned (utf8 kv.1)).getD []) := by
    intro kv hkv
    obtain ⟨u, hu⟩ := hsome kv (horder.mem_iff.mp hkv)
    rw [hu, Option.getD_some]
  have hmap : ((swift.order d).map (fun kv => (JS_NewAtom interned (utf8 kv.1)).getD [])).map some
      = (swift.order d).map (fun kv => JS_NewAtom interned (utf8 kv.1)) := by
    rw [List.map_map]
    exact List.map_congr_left fun kv hkv => (hatom kv hkv).symm
  have hall := (horder.map (fun kv => JS_NewAtom interned (utf8 kv.1))).trans hperm
  have hnodup : ((swift.order d).map
      (fun kv => (JS_NewAtom interned (utf8 kv.1)).getD [])).Nodup := by
    apply List.Nodup.of_map some
    rw [hmap]
    exact hall.nodup_iff.mpr hnodup'
  have heq := @names_addExports_of_atoms interned ⟨d, [], false, false, false, t.next⟩
    (swift.order d) (fun kv => (JS_NewAtom interned (utf8 kv.1)).getD []) hatom hnodup
  rw [Tree.module_eq, ← hd, heq]
  refine ⟨?_, hnodup⟩
  rw [show names ([] : List JSExportEntry) = [] from rfl, List.nil_append, hmap]
  exact hall

/-! ## Both directions -/

/-- What the last leaf of a name is to the dictionary, if it is a child. -/
theorem LastIsChild.mem (h : LastIsChild swift t.property) {kv : List Char × JSModuleProperty}
    (hkv : kv ∈ builderProperties swift t.property) :
    ∃ l, lastNamed swift Prod.fst t.property.leaves kv.1 = some l ∧ kv.2 = leaf l := by
  have hlast := ((builderProperties_last t.property).1 kv hkv).1
  rw [h kv.1] at hlast
  obtain ⟨l, hl, heq⟩ := Option.map_eq_some_iff.mp hlast
  exact ⟨l, hl, heq.symm⟩

/-- An exported name belongs to a key. -/
theorem NamesKept.key_of_name (h : NamesKept swift interned interned' t.property)
    {u : List UInt16} (hu : u ∈ names (t.module swift interned).export_entries) :
    ∃ kv ∈ builderProperties swift t.property, ∃ n, u = utf16 n ∧
      JS_NewAtom interned' (utf8 kv.1) = some (utf16 n) ∧
      swift.normalize n = swift.normalize kv.1 := by
  obtain ⟨kv, hkv, heq⟩ := List.mem_map.mp
    (h.names_perm.1.mem_iff.mp (List.mem_map.mpr ⟨u, hu, rfl⟩))
  obtain ⟨n, hatom, hn⟩ := h.1 kv hkv
  rw [hatom, Option.some_inj] at heq
  exact ⟨kv, hkv, n, heq.symm, hatom, hn⟩

/-- A key is exported under its name. -/
theorem NamesKept.mem_names (h : NamesKept swift interned interned' t.property)
    {kv : List Char × JSModuleProperty} (hkv : kv ∈ builderProperties swift t.property)
    {n : List Char} (hatom : JS_NewAtom interned' (utf8 kv.1) = some (utf16 n)) :
    utf16 n ∈ names (t.module swift interned).export_entries := by
  obtain ⟨u, hu, heq⟩ := List.mem_map.mp
    (h.names_perm.1.mem_iff.mpr (List.mem_map.mpr ⟨kv, hkv, hatom⟩))
  rwa [← Option.some_inj.mp heq]

/-- After `load()` the cell of a key holds its value. -/
theorem NamesKept.cell_loaded (h : NamesKept swift interned interned' t.property)
    {kv : List Char × JSModuleProperty} (hkv : kv ∈ builderProperties swift t.property)
    {n : List Char} (hatom : JS_NewAtom interned' (utf8 kv.1) = some (utf16 n)) :
    cell (t.loaded swift interned interned').export_entries (utf16 n) = some kv.2.jsValue := by
  have horder := swift.order_perm (builderProperties swift t.property)
  have hbound := (@setExports_bound interned' (t.created swift interned)
    (swift.order (builderProperties swift t.property))
    (fun kv => (JS_NewAtom interned' (utf8 kv.1)).getD []) ?_ ?_).2 kv (horder.mem_iff.mpr hkv)
  · rw [hatom, Option.getD_some] at hbound
    rw [Tree.loaded_eq, hbound]
  · intro kv' hkv'
    obtain ⟨n', hatom', -⟩ := h.1 kv' (horder.mem_iff.mp hkv')
    rw [hatom', Option.getD_some, Tree.cell_created (h.mem_names (horder.mem_iff.mp hkv') hatom')]
    exact ⟨rfl, by simp⟩
  · apply List.Nodup.map_on _
      (horder.nodup_iff.mpr (builderProperties_spec swift t.property).1.of_map)
    intro kv₁ h₁ kv₂ h₂ heq
    obtain ⟨n₁, hatom₁, -⟩ := h.1 kv₁ (horder.mem_iff.mp h₁)
    obtain ⟨n₂, hatom₂, -⟩ := h.1 kv₂ (horder.mem_iff.mp h₂)
    apply h.atom_injOn (horder.mem_iff.mp h₁) (horder.mem_iff.mp h₂)
    rw [hatom₁, hatom₂, Option.getD_some, Option.getD_some] at heq
    rw [hatom₁, hatom₂, heq]

/-- A tree whose last leaves are children, with names that are kept. -/
theorem exportsLeaves_of_kept (hlast : LastIsChild swift t.property)
    (hkept : NamesKept swift interned interned' t.property) :
    ExportsLeaves swift interned interned' t := by
  have horder := swift.order_perm (builderProperties swift t.property)
  refine ⟨hkept.names_perm.2, ?_, ?_, ?_, ?_, ?_⟩
  · intro n n' hn hn' heq
    obtain ⟨kv, hkv, m, hm, hatom, hnorm⟩ := hkept.key_of_name hn
    obtain ⟨kv', hkv', m', hm', hatom', hnorm'⟩ := hkept.key_of_name hn'
    rw [utf16_injective hm, utf16_injective hm'] at heq ⊢
    have hsame : kv = kv' := List.inj_on_of_nodup_map (builderProperties_spec swift t.property).1
      hkv hkv' (hnorm.symm.trans (heq.trans hnorm'))
    rw [hsame, hatom', Option.some_inj] at hatom
    exact (utf16_injective hatom).symm
  · intro u hu
    obtain ⟨kv, hkv, n, hn, -, hnorm⟩ := hkept.key_of_name hu
    obtain ⟨l, hl, -⟩ := hlast.mem hkv
    obtain ⟨hleaf, hname⟩ := mem_of_lastNamed hl
    exact ⟨n, hn, l, hleaf, hname.trans hnorm.symm⟩
  · intro l hl
    obtain ⟨b, hb⟩ := exists_lastNamed hl (rfl : swift.normalize l.1 = swift.normalize l.1)
    have htop := hlast l.1
    rw [hb, Option.map_some] at htop
    obtain ⟨kv, hkv, hname, -⟩ := (builderProperties_last t.property).2 _ _ htop
    obtain ⟨n, hatom, hnorm⟩ := hkept.1 kv hkv
    exact ⟨n, hkept.mem_names hkv hatom, hname.symm.trans hnorm.symm⟩
  · intro n l hn hl
    obtain ⟨kv, hkv, m, hm, -, hnorm⟩ := hkept.key_of_name hn
    obtain ⟨l', hl', hval⟩ := hlast.mem hkv
    rw [utf16_injective hm, lastNamed_congr hnorm, hl', Option.some_inj] at hl
    refine List.mem_flatMap.mpr ⟨kv, horder.mem_iff.mpr hkv, ?_⟩
    rw [hval, hl]
    exact List.mem_singleton.mpr rfl
  · intro n l hn hl
    obtain ⟨kv, hkv, m, hm, hatom, hnorm⟩ := hkept.key_of_name hn
    obtain ⟨l', hl', hval⟩ := hlast.mem hkv
    rw [utf16_injective hm] at hl ⊢
    rw [lastNamed_congr hnorm, hl', Option.some_inj] at hl
    rw [hkept.cell_loaded hkv hatom, hval, ← hl]
    rfl

/-- The last leaf of a name is in the dictionary, if its function is in the cell. -/
theorem ExportsLeaves.mem (h : ExportsLeaves swift interned interned' t) {n : List Char}
    {l : List Char × ℕ} (hl : lastNamed swift Prod.fst t.property.leaves n = some l) :
    ∃ kv ∈ builderProperties swift t.property, kv.2 = leaf l ∧
      swift.normalize kv.1 = swift.normalize n ∧
      ∃ n', JS_NewAtom interned' (utf8 kv.1) = some (utf16 n') ∧
        swift.normalize n' = swift.normalize kv.1 ∧
        utf16 n' ∈ names (t.module swift interned).export_entries := by
  obtain ⟨hleaf, hname⟩ := mem_of_lastNamed hl
  obtain ⟨n', hn', hnorm⟩ := h.all l hleaf
  have hbound := h.bound n' l hn' (by rw [← lastNamed_congr (hname.symm.trans hnorm), hl])
  rw [Tree.loaded_eq] at hbound
  rcases setExports_origin hbound with hold | ⟨kv, hkv, hatom, hval⟩
  · rw [Tree.cell_created hn'] at hold
    exact absurd hold (by simp)
  have hkv := (swift.order_perm _).mem_iff.mp hkv
  obtain ⟨htop, hkey⟩ := (builderProperties_spec swift t.property).2 kv hkv
  cases hprop : kv.2 with
  | combine children =>
    rw [hprop] at hval
    exact absurd hval (by simp [JSModuleProperty.jsValue])
  | function m f =>
    rw [hprop] at hval htop hkey
    injection hval with hf
    -- One function, one name: the property is the leaf.
    have hm : l.1 = m := t.named l hleaf (m, f) (mem_leaves_of_topLevel htop) hf
    refine ⟨kv, hkv, ?_, ?_, n', hatom, ?_, hn'⟩
    · rw [hprop, ← hm, ← hf]
      rfl
    · rw [hkey]
      change swift.normalize m = _
      rw [← hm, hname]
    · rw [hkey, ← hnorm, hm]
      rfl

/-- The name of a block is its own atom. -/
theorem dumy_atom (interned : AtomTable) :
    JS_NewAtom interned (utf8 ['<', 'D', 'U', 'M', 'Y', '>'])
      = some (utf16 ['<', 'D', 'U', 'M', 'Y', '>']) :=
  Global.JS_NewAtom_plain ⟨by simp, by decide, by decide⟩ interned

/-- A nested block that stays in the dictionary is exported, under a name that no leaf
has. -/
theorem lastIsChild_of_exportsLeaves (h : ExportsLeaves swift interned interned' t) :
    LastIsChild swift t.property := by
  obtain ⟨hdict, hfind⟩ := @builderProperties_last swift t.property
  intro n
  cases hl : lastNamed swift Prod.fst t.property.leaves n with
  | some l =>
    obtain ⟨kv, hkv, hval, hkey, -⟩ := h.mem hl
    rw [← lastNamed_congr hkey, (hdict kv hkv).1, hval]
    rfl
  | none =>
    -- No leaf has the name, so a child that has it is a block.
    have hnone : ∀ c ∈ topLevel t.property, swift.normalize c.name = swift.normalize n →
        ∃ children, c = .combine children := by
      intro c hc hname
      cases c with
      | combine children => exact ⟨children, rfl⟩
      | function m f =>
        obtain ⟨b, hb⟩ := @exists_lastNamed _ swift Prod.fst _ n _ (mem_leaves_of_topLevel hc) hname
        rw [hl] at hb
        exact absurd hb (by simp)
    cases hc : lastNamed swift JSModuleProperty.name (topLevel t.property) n with
    | none => rfl
    | some c =>
      obtain ⟨kv, hkv, hkey, -⟩ := hfind n c hc
      obtain ⟨c', hc', hspell⟩ := (hdict kv hkv).2
      obtain ⟨children, rfl⟩ := hnone c' hc' (by rw [← hspell, hkey])
      have hatom : JS_NewAtom interned (utf8 kv.1) = some (utf16 kv.1) := by
        rw [hspell]
        exact dumy_atom interned
      have hmem : utf16 kv.1 ∈ names (t.module swift interned).export_entries := by
        rw [Tree.module_eq]
        exact mem_names_addExports (Or.inr ⟨kv, (swift.order_perm _).mem_iff.mpr hkv, hatom⟩)
      obtain ⟨m, hm, l, hleaf, hname⟩ := h.only _ hmem
      rw [← utf16_injective hm, hkey] at hname
      obtain ⟨b, hb⟩ := exists_lastNamed hleaf hname
      rw [hl] at hb
      exact absurd hb (by simp)

/-- As many exports as keys: every key has its atom, and the atoms are those at
`load()`. -/
theorem namesKept_of_exportsLeaves (h : ExportsLeaves swift interned interned' t) :
    NamesKept swift interned interned' t.property := by
  have hkeys := (builderProperties_spec swift t.property).1
  have hlast := lastIsChild_of_exportsLeaves h
  set d := builderProperties swift t.property with hd
  have horder : (swift.order d).Perm d := swift.order_perm d
  have hload : ∀ kv ∈ d, ∃ n, JS_NewAtom interned' (utf8 kv.1) = some (utf16 n) ∧
      swift.normalize n = swift.normalize kv.1 ∧
      utf16 n ∈ names (t.module swift interned).export_entries := by
    intro kv hkv
    obtain ⟨l, hl, -⟩ := hlast.mem hkv
    obtain ⟨kv', hkv', -, hkey, n, hatom, hnorm, hmem⟩ := h.mem hl
    obtain rfl : kv' = kv := List.inj_on_of_nodup_map hkeys hkv' hkv hkey
    exact ⟨n, hatom, hnorm, hmem⟩
  refine ⟨fun kv hkv => ?_, ?_⟩
  · obtain ⟨n, hatom, hnorm, -⟩ := hload kv hkv
    exact ⟨n, hatom, hnorm⟩
  obtain ⟨new, heq, hsub⟩ := names_addExports_sublist interned
    ⟨d, [], false, false, false, t.next⟩ (swift.order d)
  rw [hd, ← Tree.module_eq, show names ([] : List JSExportEntry) = [] from rfl,
    List.nil_append] at heq
  -- The atoms at `load()` are different entries.
  have hnodup : (d.map (fun kv => JS_NewAtom interned' (utf8 kv.1))).Nodup := by
    apply List.Nodup.map_on _ hkeys.of_map
    intro kv hkv kv' hkv' hsame
    obtain ⟨n, hatom, hn, -⟩ := hload kv hkv
    obtain ⟨n', hatom', hn', -⟩ := hload kv' hkv'
    rw [hatom, hatom', Option.some_inj] at hsame
    apply List.inj_on_of_nodup_map hkeys hkv hkv'
    rw [← hn, ← hn', utf16_injective hsame]
  have hsubset : d.map (fun kv => JS_NewAtom interned' (utf8 kv.1)) ⊆ new.map some := by
    intro u hu
    obtain ⟨kv, hkv, rfl⟩ := List.mem_map.mp hu
    obtain ⟨n, hatom, -, hmem⟩ := hload kv hkv
    rw [hatom]
    exact List.mem_map.mpr ⟨_, heq ▸ hmem, rfl⟩
  have hlen : d.length ≤ new.length := by
    simpa using (List.subperm_of_subset hnodup hsubset).length_le
  have hfull : ((swift.order d).filterMap (fun kv => JS_NewAtom interned (utf8 kv.1))).length
      = (swift.order d).length :=
    le_antisymm (List.length_filterMap_le _ _) (by
      rw [horder.length_eq]
      exact hlen.trans hsub.length_le)
  have hall : new.map some = (swift.order d).map (fun kv => JS_NewAtom interned (utf8 kv.1)) := by
    rw [hsub.eq_of_length_le (by rw [hfull, horder.length_eq]; exact hlen)]
    have hsome := List.filterMap_length_eq_length.mp hfull
    rw [List.map_filterMap]
    rw [← List.filterMap_eq_map]
    apply List.filterMap_congr
    intro kv hkv
    obtain ⟨u, hu⟩ := Option.isSome_iff_exists.mp (hsome kv hkv)
    rw [Function.comp_apply, hu]
    rfl
  have hperm : (d.map (fun kv => JS_NewAtom interned' (utf8 kv.1))).Perm (new.map some) := by
    apply (List.subperm_of_subset hnodup hsubset).perm_of_length_le
    rw [hall, List.length_map, List.length_map, horder.length_eq]
  rw [hall] at hperm
  exact ((horder.map _).symm.trans hperm.symm)

/-- **The module exports every leaf** of its builder's tree exactly if the last leaf of
every name is a child of the outermost block, no nested block staying behind it, and the
engine's atoms of the names are the names. -/
theorem exports_leaves_iff (swift : Stdlib) (interned interned' : AtomTable) (t : Tree) :
    ExportsLeaves swift interned interned' t ↔
      LastIsChild swift t.property ∧ NamesKept swift interned interned' t.property := by
  constructor
  · intro h
    exact ⟨lastIsChild_of_exportsLeaves h, namesKept_of_exportsLeaves h⟩
  · rintro ⟨hlast, hkept⟩
    exact exportsLeaves_of_kept hlast hkept

end Tree

/-- A block of leaves, as in a builder without helpers. -/
theorem lastIsChild_of_flat (swift : Stdlib) (ls : List (List Char × ℕ)) :
    LastIsChild swift (.combine (ls.map leaf)) := by
  have hleaves : (JSModuleProperty.combine (ls.map leaf)).leaves = ls := by
    rw [JSModuleProperty.leaves]
    induction ls with
    | nil => rfl
    | cons l ls ih =>
      rw [List.map_cons, JSModuleProperty.leaves.leavesOf, ih]
      rfl
  intro n
  rw [hleaves]
  unfold lastNamed topLevel
  dsimp only
  rw [List.filter_map, List.getLast?_map]
  rfl

/-- A builder block with a nested block, and a function in each. -/
def nestedBlocks : Tree where
  property := .combine [.combine [.function ['f'] 0], .function ['g'] 1]
  next := 2
  built := by decide
  named := by decide

/-- The function of the nested block is not exported. -/
theorem nested_leaf_missing : ¬ ExportsLeaves insertionOrder [] [] nestedBlocks := by
  intro h
  obtain ⟨n, hn, hname⟩ := h.all (['f'], 0) (by decide)
  have hf : n = ['f'] := hname.symm
  rw [hf] at hn
  exact absurd hn (by decide +kernel)

end QuickJSSwift.ModuleExports
