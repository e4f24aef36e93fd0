/-
Atoms: the table of interned strings.

A property name, a variable name or a symbol is an atom, an index into `atom_array`. The
entry is a string with a header, and it is a JS string too: a string that is made into an
atom becomes the entry itself, and a string value of an atom is a pointer to it. So the
count of an entry counts both, the atoms that C code holds and the pointers.

Free entries are chained through the array. Entries that are looked up by their text
(`STRING` and `GLOBAL_SYMBOL`) are chained through `hash_next`, one chain for each value of
the hash; in the others, which are never equal to anything else, `hash_next` is the index
of the entry. The hash table doubles when there are twice as many entries as chains.

Reading a free entry, or one outside of the array, has no result, and neither has a failed
assertion. Memory is not exhausted. The predefined atoms, below `JS_ATOM_END`, are counted
only for their pointers.
-/
import QuickJSSwift.Text
import QuickJSSwift.Lib.Linked

set_option autoImplicit false
set_option linter.style.nameCheck false

namespace QuickJSSwift.Atom

open Linked Text

/-- `JS_ATOM_TYPE_x`. -/
inductive JSAtomType
  | STRING
  | GLOBAL_SYMBOL
  | SYMBOL
  | PRIVATE
  deriving DecidableEq, Repr

/-- The value of the enumeration. -/
def JSAtomType.toUInt32 : JSAtomType → UInt32
  | .STRING => 1
  | .GLOBAL_SYMBOL => 2
  | .SYMBOL => 3
  | .PRIVATE => 4

def JS_ATOM_HASH_SYMBOL : ℕ := 0
def JS_ATOM_HASH_PRIVATE : ℕ := 1
def JS_ATOM_HASH_MASK : UInt32 := 0x3fffffff
def JS_ATOM_MAX : ℤ := 2 ^ 30 - 1
def JS_ATOM_NULL : ℕ := 0

/-- `JSAtomStruct`, which is `JSString`, in the table. -/
structure JSAtomStruct where
  ref_count : ℤ
  atom_type : JSAtomType
  hash : ℕ
  hash_next : ℕ
  str : JSString
  deriving DecidableEq, Repr

/-- An element of `atom_array`: `atom_set_free(next)` or a pointer. -/
inductive Slot
  | free (next : ℕ)
  | used (p : JSAtomStruct)
  deriving DecidableEq, Repr

/-- The fields of `JSRuntime` that concern atoms. -/
structure JSRuntime where
  atom_hash_size : ℕ
  atom_count : ℤ
  atom_size : ℕ
  atom_count_resize : ℤ
  atom_hash : ℕ → ℕ
  atom_array : ℕ → Option Slot
  atom_free_index : ℕ

namespace JSRuntime

/-- `rt->atom_array[i]`, of an entry in use. -/
def atom (rt : JSRuntime) (i : ℕ) : Option JSAtomStruct :=
  match rt.atom_array i with
  | some (.used p) => some p
  | _ => none

/-- `atom_get_free(rt->atom_array[i])`. -/
def atom_get_free (rt : JSRuntime) (i : ℕ) : Option ℕ :=
  match rt.atom_array i with
  | some (.free next) => some next
  | _ => none

def put (rt : JSRuntime) (i : ℕ) (s : Slot) : JSRuntime :=
  { rt with atom_array := Function.update rt.atom_array i (some s) }

/-- The chain of a hash. -/
def bucket (rt : JSRuntime) (h : ℕ) : ℕ := h &&& (rt.atom_hash_size - 1)

end JSRuntime

/-! ## Strings -/

/-- `hash_string8` and `hash_string16`. -/
def hash_string (str : JSString) (h : UInt32) : UInt32 :=
  match str with
  | .str8 u => u.foldl (fun h c => h * 263 + c.toUInt32) h
  | .str16 u => u.foldl (fun h c => h * 263 + c.toUInt32) h

/-- The hash of an atom. -/
def atom_hash (str : JSString) (atom_type : JSAtomType) : ℕ :=
  (hash_string str atom_type.toUInt32 &&& JS_ATOM_HASH_MASK).toNat

/-- `memcmp16`; `memcmp` and `memcmp16_8` do the same on narrow characters. -/
def memcmp16 : List UInt16 → List UInt16 → ℕ → ℤ
  | c1 :: src1, c2 :: src2, n + 1 => if c1 ≠ c2 then c1.toNat - c2.toNat else memcmp16 src1 src2 n
  | _, _, _ => 0

/-- `js_string_memcmp`. -/
def js_string_memcmp (p1 p2 : JSString) (len : ℕ) : ℤ := memcmp16 p1.units p2.units len

/-- `p->len`. -/
def JSString_len (p : JSString) : ℕ := p.units.length

/-! ## The hash table -/

/-- `JS_ATOM_COUNT_RESIZE`. -/
def JS_ATOM_COUNT_RESIZE (n : ℕ) : ℤ := n * 2

/-- The inner loop of `JS_ResizeAtomHash`, over the chain that starts at `h`. -/
def rehash_chain (new_hash_mask : ℕ) :
    ℕ → ℕ → JSRuntime × (ℕ → ℕ) → Option (JSRuntime × (ℕ → ℕ))
  | n, h, (rt, new_hash) =>
    if h = 0 then some (rt, new_hash)
    else match n with
      | 0 => none
      | n + 1 => do
        let p ← rt.atom h
        -- add in new hash table
        let j := p.hash &&& new_hash_mask
        rehash_chain new_hash_mask n p.hash_next
          (rt.put h (.used { p with hash_next := new_hash j }), Function.update new_hash j h)

/-- `JS_ResizeAtomHash`. -/
def JS_ResizeAtomHash (rt : JSRuntime) (new_hash_size : ℕ) : Option JSRuntime := do
  guard (new_hash_size &&& (new_hash_size - 1) = 0)
  let (rt', new_hash) ← (List.range rt.atom_hash_size).foldlM
    (fun s i => rehash_chain (new_hash_size - 1) rt.atom_size (rt.atom_hash i) s)
    (rt, fun _ => 0)
  return { rt' with
    atom_hash := new_hash
    atom_hash_size := new_hash_size
    atom_count_resize := JS_ATOM_COUNT_RESIZE new_hash_size }

/-- `js_get_atom_index`, of the entry `a`. -/
def js_get_atom_index (rt : JSRuntime) (a : ℕ) : Option ℕ := do
  let p ← rt.atom a
  if p.atom_type ≠ .SYMBOL then
    let i ← walk rt.atom (·.hash_next) (fun i _ => i = a) rt.atom_size (rt.atom_hash (rt.bucket p.hash))
    guard (i ≠ 0)
    return i
  else return p.hash_next

/-- The part of `JS_FreeAtomStruct` that takes the entry out of its chain, if it is on one. -/
def unchain (rt : JSRuntime) (a : ℕ) (p : JSAtomStruct) : Option JSRuntime :=
  let h0 := rt.bucket p.hash
  if rt.atom_hash h0 = a then
    some { rt with atom_hash := Function.update rt.atom_hash h0 p.hash_next }
  else do
    let i ← walkBefore rt.atom (·.hash_next) a rt.atom_size (rt.atom_hash h0)
    let p0 ← rt.atom i
    return rt.put i (.used { p0 with hash_next := p.hash_next })

def leave_chain (rt : JSRuntime) (a : ℕ) (p : JSAtomStruct) : Option JSRuntime :=
  if p.atom_type ≠ .SYMBOL then unchain rt a p else some rt

/-- `JS_FreeAtomStruct`, of the entry `a`. -/
def JS_FreeAtomStruct (rt : JSRuntime) (a : ℕ) : Option JSRuntime := do
  let p ← rt.atom a
  let rt ← leave_chain rt a p
  let i := if p.atom_type ≠ .SYMBOL then a else p.hash_next
  -- insert in free atom list
  let rt : JSRuntime := { rt.put i (.free rt.atom_free_index) with
    atom_free_index := i, atom_count := rt.atom_count - 1 }
  guard (0 ≤ rt.atom_count)
  return rt

/-- The count of an entry changes. -/
def JSRuntime.add_ref (rt : JSRuntime) (a : ℕ) (n : ℤ) : Option JSRuntime := do
  let p ← rt.atom a
  return rt.put a (.used { p with ref_count := p.ref_count + n })

/-- `js_free_string`, of an entry, and `__JS_FreeAtom`. -/
def __JS_FreeAtom (rt : JSRuntime) (a : ℕ) : Option JSRuntime := do
  let rt ← rt.add_ref a (-1)
  let p ← rt.atom a
  if p.ref_count ≤ 0 then JS_FreeAtomStruct rt a else return rt

/-- A string that is to be made into an atom: `NULL`, a string that is none yet, with its
count, or one that is an entry of the table. -/
inductive StringPtr
  | null
  | string (ref_count : ℤ) (s : JSString)
  | atom (a : ℕ)
  deriving DecidableEq, Repr

/-- The characters of the string. -/
def StringPtr.str (rt : JSRuntime) : StringPtr → Option JSString
  | .null => none
  | .string _ s => some s
  | .atom a => (rt.atom a).map JSAtomStruct.str

/-- `js_free_string`; what is not in the table is not kept here. -/
def js_free_string (rt : JSRuntime) : StringPtr → Option JSRuntime
  | .atom a => __JS_FreeAtom rt a
  | _ => some rt

/-! ## New entries -/

/-- The new size of the array, computed with a C `int`. -/
def new_atom_size (rt : JSRuntime) : ℤ := max 211 ((cInt (rt.atom_size * 3)).tdiv 2)

/-- The array gets its new size, and the new entries are chained as free ones. Entry 0 is
`JS_ATOM_NULL`. -/
def grow (rt : JSRuntime) (new_size : ℕ) : JSRuntime :=
  let start := max 1 rt.atom_size
  let null : JSAtomStruct :=
    { ref_count := 1, atom_type := .SYMBOL, hash := 0, hash_next := 0, str := .str8 [] }
  { rt with
    atom_count := if rt.atom_size = 0 then rt.atom_count + 1 else rt.atom_count
    atom_size := new_size
    atom_free_index := start
    atom_array := fun i =>
      if new_size ≤ i then none
      else if start ≤ i then some (.free (if i = new_size - 1 then 0 else i + 1))
      else if rt.atom_size = 0 then some (.used null)
      else rt.atom_array i }

/-- What is copied into a new entry, with its count, and what is freed for it. -/
def take_string (rt : JSRuntime) : StringPtr → Option ((ℤ × JSString) × JSRuntime)
  | .null => some ((1, .str16 []), rt)
  | .string ref_count s => some ((ref_count, s), rt)
  | .atom a => do
    let p ← rt.atom a
    let rt ← __JS_FreeAtom rt a
    return ((1, p.str), rt)

/-- The end of `__JS_NewAtom`: the first free entry is used. -/
def use_entry (rt : JSRuntime) (ref_count : ℤ) (str : JSString) (h : ℕ) (atom_type : JSAtomType) :
    Option (ℕ × JSRuntime) := do
  let i := rt.atom_free_index
  let next ← rt.atom_get_free i
  let hash_next := if atom_type ≠ .SYMBOL then rt.atom_hash (rt.bucket h) else i
  let rt : JSRuntime := { rt.put i (.used { ref_count, atom_type, hash := h, hash_next, str }) with
    atom_free_index := next
    atom_count := rt.atom_count + 1
    atom_hash :=
      if atom_type ≠ .SYMBOL then Function.update rt.atom_hash (rt.bucket h) i else rt.atom_hash }
  let rt ← (if atom_type ≠ .SYMBOL ∧ rt.atom_count_resize ≤ rt.atom_count then
      JS_ResizeAtomHash rt (rt.atom_hash_size * 2)
    else some rt)
  return (i, rt)

/-- `__JS_NewAtom`, where the atom is new. -/
def new_entry (rt : JSRuntime) (str : StringPtr) (h : ℕ) (atom_type : JSAtomType) :
    Option (ℕ × JSRuntime) :=
  if rt.atom_free_index = 0 ∧ JS_ATOM_MAX < new_atom_size rt then do
    let rt ← js_free_string rt str
    return (JS_ATOM_NULL, rt)
  else do
    let rt := if rt.atom_free_index = 0 then grow rt (new_atom_size rt).toNat else rt
    let ((ref_count, s), rt) ← take_string rt str
    use_entry rt ref_count s h atom_type

/-- The loop that looks an atom up. -/
def find_atom (rt : JSRuntime) (str : JSString) (h : ℕ) (atom_type : JSAtomType) : Option ℕ :=
  walk rt.atom (·.hash_next) (fun _ p => p.hash = h ∧ p.atom_type = atom_type ∧
      JSString_len p.str = JSString_len str ∧ js_string_memcmp p.str str (JSString_len str) = 0)
    rt.atom_size (rt.atom_hash (rt.bucket h))

section Constants

variable (JS_ATOM_END : ℕ)

/-- `__JS_AtomIsConst`, which looks at the atom as an `int32_t`. -/
def __JS_AtomIsConst (v : ℕ) : Prop := cInt v < JS_ATOM_END

instance (v : ℕ) : Decidable (__JS_AtomIsConst JS_ATOM_END v) :=
  inferInstanceAs (Decidable (cInt v < JS_ATOM_END))

/-- The middle of `__JS_NewAtom`: an atom that is registered already, or a new one. -/
def locate_atom (rt : JSRuntime) (str : StringPtr) (s : JSString) (atom_type : JSAtomType) :
    Option (ℕ × JSRuntime) := do
  let h := atom_hash s atom_type
  let i ← find_atom rt s h atom_type
  if i ≠ 0 then
    let rt ← (if __JS_AtomIsConst JS_ATOM_END i then some rt else rt.add_ref i 1)
    let rt ← js_free_string rt str
    return (i, rt)
  else new_entry rt str h atom_type

/-- `__JS_NewAtom`, of an atom that is looked up by its text. -/
def intern_atom (rt : JSRuntime) (str : StringPtr) (atom_type : JSAtomType) :
    Option (ℕ × JSRuntime) :=
  match str with
  | .null => none
  | .string _ s => locate_atom JS_ATOM_END rt str s atom_type
  | .atom a => do
    let p ← rt.atom a
    if p.atom_type = atom_type then
      -- str is the atom, return its index
      let i ← js_get_atom_index rt a
      let rt ← (if __JS_AtomIsConst JS_ATOM_END i then rt.add_ref a (-1) else some rt)
      return (i, rt)
    else locate_atom JS_ATOM_END rt str p.str atom_type

/-- `__JS_NewAtom`. The reference to the string is given up. -/
def __JS_NewAtom (rt : JSRuntime) (str : StringPtr) (atom_type : JSAtomType) :
    Option (ℕ × JSRuntime) :=
  match atom_type with
  | .STRING => intern_atom JS_ATOM_END rt str .STRING
  | .GLOBAL_SYMBOL => intern_atom JS_ATOM_END rt str .GLOBAL_SYMBOL
  | .SYMBOL => new_entry rt str JS_ATOM_HASH_SYMBOL .SYMBOL
  | .PRIVATE => new_entry rt str JS_ATOM_HASH_PRIVATE .SYMBOL

/-- `JS_DupAtom`. -/
def JS_DupAtom (rt : JSRuntime) (v : ℕ) : Option JSRuntime :=
  if __JS_AtomIsConst JS_ATOM_END v then some rt else rt.add_ref v 1

/-- `JS_FreeAtom`. -/
def JS_FreeAtom (rt : JSRuntime) (v : ℕ) : Option JSRuntime :=
  if __JS_AtomIsConst JS_ATOM_END v then some rt else __JS_FreeAtom rt v

/-- `__JS_FindAtom`, which only looks at narrow strings and compares bytes. -/
def __JS_FindAtom (rt : JSRuntime) (str : List UInt8) : Option (ℕ × JSRuntime) := do
  let h := atom_hash (.str8 str) .STRING
  let i ← walk rt.atom (·.hash_next)
    (fun _ p => p.hash = h ∧ p.atom_type = .STRING ∧ p.str = .str8 str)
    rt.atom_size (rt.atom_hash (rt.bucket h))
  if i ≠ 0 then
    let rt ← (if __JS_AtomIsConst JS_ATOM_END i then some rt else rt.add_ref i 1)
    return (i, rt)
  else return (JS_ATOM_NULL, rt)

end Constants

/-- The table before `JS_InitAtoms`. -/
def no_atoms : JSRuntime where
  atom_hash_size := 0
  atom_count := 0
  atom_size := 0
  atom_count_resize := 0
  atom_hash := fun _ => 0
  atom_array := fun _ => none
  atom_free_index := 0

/-- `JS_InitAtoms`, with the texts of `js_atom_init` and their types. -/
def JS_InitAtoms (js_atom_init : List (JSAtomType × List UInt8)) : Option JSRuntime := do
  let rt ← JS_ResizeAtomHash no_atoms 256
  js_atom_init.foldlM (fun rt (atom_type, p) => do
    let (atom, rt) ← __JS_NewAtom (js_atom_init.length + 1) rt (.string 1 (.str8 p)) atom_type
    guard (atom ≠ JS_ATOM_NULL)
    return rt) rt

end QuickJSSwift.Atom
