/-
Module definitions of the engine: `JSModuleDef` and its export entries (`quickjs.c`),
with the calls the Swift side makes on them, `JS_AddModuleExport` and
`JS_SetModuleExport`.

An export entry of a native module has no variable until the engine creates the module's
function: `js_create_module_function` makes one cell for each entry that exists at that
moment. Setting an export writes through the entry's cell without looking whether there
is one.
-/
import QuickJSSwift.Value
import QuickJSSwift.Text

set_option autoImplicit false

namespace QuickJSSwift.ModuleDef

open Text

/-- What an exported variable holds. The functions that `JS_NewCFunctionData` makes are
numbered in the order they are made. -/
inductive Content
  | undefined
  | function (f : ℕ)
  deriving DecidableEq, Repr

/-- `JSExportEntry`. A local export has its variable, `none` for a null `var_ref`; an
indirect one names a module request of its own module. -/
inductive ExportKind
  | typeLocal (var_ref : Option Content)
  | typeIndirect (req_module_idx : ℕ)
  deriving DecidableEq, Repr

/-- `JSExportEntry`. -/
structure JSExportEntry where
  export_name : List UInt16
  local_name : JSAtom
  kind : ExportKind
  deriving DecidableEq, Repr

/-- `me->u.typeLocal.var_ref`. -/
def JSExportEntry.var_ref (me : JSExportEntry) : Option Content :=
  match me.kind with
  | .typeLocal v => v
  | .typeIndirect _ => none

/-- `find_export_entry`. -/
def find_export_entry (entries : List JSExportEntry) (export_name : List UInt16) :
    Option JSExportEntry :=
  entries.find? (fun me => me.export_name = export_name)

/-- `add_export_entry2` for a local export; a duplicate name throws and adds nothing. -/
def add_export_entry2 (entries : List JSExportEntry) (export_name : List UInt16) :
    Option (List JSExportEntry) :=
  match find_export_entry entries export_name with
  | some _ => none
  | none => some (entries ++ [⟨export_name, none, .typeLocal none⟩])

/-- `JS_AddModuleExport`: the entries, and whether the call succeeded. -/
def JS_AddModuleExport (interned : AtomTable) (entries : List JSExportEntry)
    (export_name : List UInt8) : List JSExportEntry × Bool :=
  match JS_NewAtom interned export_name with
  | none => (entries, false)
  | some name =>
    match add_export_entry2 entries name with
    | none => (entries, false)
    | some entries => (entries, true)

/-- `set_value` through the cell of the first entry called `name`. -/
def setCell : List JSExportEntry → List UInt16 → Content → List JSExportEntry
  | [], _, _ => []
  | me :: entries, name, val =>
    if me.export_name = name then { me with kind := .typeLocal (some val) } :: entries
    else me :: setCell entries name val

/-- How a `JS_SetModuleExport` ends. -/
inductive SetResult
  | stored (entries : List JSExportEntry)
  | freed
  | nullDereference
  deriving DecidableEq, Repr

/-- `JS_SetModuleExport`. The value is moved into the cell, or freed when there is no
such entry; an entry without a cell is a null dereference. -/
def JS_SetModuleExport (interned : AtomTable) (entries : List JSExportEntry)
    (export_name : List UInt8) (val : Content) : SetResult :=
  match JS_NewAtom interned export_name with
  | none => .freed
  | some name =>
    match find_export_entry entries name with
    | none => .freed
    | some me =>
      match me.var_ref with
      | none => .nullDereference
      | some _ => .stored (setCell entries name val)

/-- The part of `js_create_module_function` that a native module has: a variable for
each local export. -/
def createCells (entries : List JSExportEntry) : List JSExportEntry :=
  entries.map (fun me =>
    match me.kind with
    | .typeLocal _ => { me with kind := .typeLocal (some .undefined) }
    | .typeIndirect _ => me)

/-- The cell of the entry called `name`. -/
def cell (entries : List JSExportEntry) (name : List UInt16) : Option Content :=
  (find_export_entry entries name).bind JSExportEntry.var_ref

/-- The exported names. -/
def names (entries : List JSExportEntry) : List (List UInt16) := entries.map JSExportEntry.export_name

/-! ## What the calls change -/

theorem find_export_entry_eq_none {entries : List JSExportEntry} {n : List UInt16} :
    find_export_entry entries n = none ↔ n ∉ names entries := by
  unfold find_export_entry names
  rw [List.find?_eq_none]
  constructor
  · intro h hmem
    obtain ⟨me, hme, heq⟩ := List.mem_map.mp hmem
    exact h me hme (by simpa using heq)
  · intro h me hme heq
    exact h (List.mem_map.mpr ⟨me, hme, by simpa using heq⟩)

/-- The three ways `JS_AddModuleExport` ends: the name has no atom, or an entry already,
or it is new. -/
theorem JS_AddModuleExport_eq (interned : AtomTable) (entries : List JSExportEntry)
    (export_name : List UInt8) :
    (JS_AddModuleExport interned entries export_name).1 =
      match JS_NewAtom interned export_name with
      | none => entries
      | some name =>
        if name ∈ names entries then entries else entries ++ [⟨name, none, .typeLocal none⟩] := by
  unfold JS_AddModuleExport add_export_entry2
  cases JS_NewAtom interned export_name with
  | none => rfl
  | some name =>
    dsimp only
    by_cases hmem : name ∈ names entries
    · rw [if_pos hmem]
      cases hfind : find_export_entry entries name with
      | none => exact absurd hmem (find_export_entry_eq_none.mp hfind)
      | some me => rfl
    · rw [if_neg hmem, find_export_entry_eq_none.mpr hmem]

theorem names_setCell (entries : List JSExportEntry) (n : List UInt16) (val : Content) :
    names (setCell entries n val) = names entries := by
  induction entries with
  | nil => rfl
  | cons me entries ih =>
    rw [setCell]
    split_ifs
    · rfl
    · unfold names at ih ⊢
      rw [List.map_cons, List.map_cons, ih]

theorem cell_cons (me : JSExportEntry) (entries : List JSExportEntry) (n : List UInt16) :
    cell (me :: entries) n = if me.export_name = n then me.var_ref else cell entries n := by
  unfold cell find_export_entry
  by_cases h : me.export_name = n
  · rw [List.find?_cons_of_pos (by simpa using h), Option.bind_some, if_pos h]
  · rw [List.find?_cons_of_neg (by simpa using h), if_neg h]

/-- Setting a cell changes that cell only. -/
theorem cell_setCell (entries : List JSExportEntry) (n m : List UInt16) (val : Content) :
    cell (setCell entries n val) m
      = if m = n ∧ n ∈ names entries then some val else cell entries m := by
  induction entries with
  | nil => simp [setCell, names]
  | cons me entries ih =>
    rw [setCell]
    by_cases h : me.export_name = n
    · rw [if_pos h, cell_cons, cell_cons]
      by_cases hm : m = n
      · rw [if_pos (h.trans hm.symm), if_pos ⟨hm, by simp [names, h]⟩]
        rfl
      · have hne : me.export_name ≠ m := fun heq => hm (heq.symm.trans h)
        rw [if_neg hne, if_neg hne, if_neg (fun hand => hm hand.1)]
    · have hmem : n ∈ names (me :: entries) ↔ n ∈ names entries := by
        simp [names, Ne.symm h]
      rw [if_neg h, cell_cons, cell_cons, ih]
      by_cases hm : me.export_name = m
      · have hne : m ≠ n := fun heq => h (hm.trans heq)
        rw [if_pos hm, if_pos hm, if_neg (fun hand => hne hand.1)]
      · rw [if_neg hm, if_neg hm]
        by_cases hand : m = n ∧ n ∈ names entries
        · rw [if_pos hand, if_pos ⟨hand.1, hmem.mpr hand.2⟩]
        · rw [if_neg hand, if_neg (fun h' => hand ⟨h'.1, hmem.mp h'.2⟩)]

theorem names_createCells (entries : List JSExportEntry) :
    names (createCells entries) = names entries := by
  unfold names createCells
  rw [List.map_map]
  apply List.map_congr_left
  intro me _
  rw [Function.comp_apply]
  split <;> rfl

/-- Created cells hold `undefined`. -/
theorem cell_createCells {entries : List JSExportEntry} {n : List UInt16} {c : Content}
    (h : cell (createCells entries) n = some c) : c = .undefined := by
  induction entries with
  | nil => simp [createCells, cell, find_export_entry] at h
  | cons me entries ih =>
    unfold createCells at h ih
    rw [List.map_cons, cell_cons] at h
    split_ifs at h
    · unfold JSExportEntry.var_ref at h
      cases hk : me.kind with
      | typeLocal v => simpa [hk] using h.symm
      | typeIndirect i => simp [hk] at h
    · exact ih h

end QuickJSSwift.ModuleDef
