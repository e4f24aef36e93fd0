/-
The predefined atoms.

`JS_ATOM_x` is the position of a name in `quickjs-atom.h`, and `JS_InitAtoms` makes atoms of
the names in that order. That the constant is the atom of the name rests on two things: the
entries are handed out one after the other, also where the array grows on the way, and no
string occurs twice, since the second one would not get an entry of its own. Two names are
the same, but one of them is a private one.
-/
import QuickJSSwift.AtomCalls

set_option autoImplicit false
set_option linter.style.nameCheck false

namespace QuickJSSwift.Atom

open Linked Text

/-- The free entries are the ones from `k` on, in order. -/
structure FreeFrom (rt : JSRuntime) (k : ℕ) : Prop where
  get : ∀ i, rt.atom_get_free i =
    if k ≤ i ∧ i < rt.atom_size then some (if i = rt.atom_size - 1 then 0 else i + 1) else none
  index : rt.atom_free_index = if k < rt.atom_size then k else 0
  pos : 0 < k
  le : k ≤ max 1 rt.atom_size

section FreeFrom

variable {rt rt' : JSRuntime} {i k : ℕ}

theorem FreeFrom.take (h : FreeFrom rt k) (hfree : rt.atom_free_index ≠ 0) (ht : Taken rt i rt') :
    i = k ∧ FreeFrom rt' (k + 1) := by
  have hlt : k < rt.atom_size := by
    by_contra hge
    rw [h.index, if_neg hge] at hfree
    exact hfree rfl
  -- the first free entry is the one at `k`
  obtain rfl : k = i := by rw [← ht.index, h.index, if_pos hlt]
  have hnext := ht.next
  rw [h.get, if_pos ⟨le_refl k, hlt⟩] at hnext
  have hnext := Option.some.inj hnext
  refine ⟨rfl, fun j => ?_, ?_, by omega, by rw [ht.atom_size]; omega⟩
  · rw [ht.free, ht.atom_size]
    by_cases hj : j = k
    · subst hj
      rw [Function.update_self, if_neg (by omega)]
    · rw [Function.update_of_ne hj, h.get]
      by_cases hc : k ≤ j ∧ j < rt.atom_size
      · have hc' : k + 1 ≤ j ∧ j < rt.atom_size := by omega
        rw [if_pos hc, if_pos hc']
      · have hc' : ¬ (k + 1 ≤ j ∧ j < rt.atom_size) := by omega
        rw [if_neg hc, if_neg hc']
  · rw [← hnext, ht.atom_size]
    by_cases hlast : k = rt.atom_size - 1
    · rw [if_pos hlast, if_neg (by omega)]
    · rw [if_neg hlast, if_pos (by omega)]

theorem FreeFrom.full (h : FreeFrom rt k) (hfull : rt.atom_free_index = 0) :
    k = max 1 rt.atom_size := by
  have hpos := h.pos
  have hle := h.le
  have hge : ¬ k < rt.atom_size := by
    intro hlt
    rw [h.index, if_pos hlt] at hfull
    omega
  omega

theorem FreeFrom.hasRoom (h : FreeFrom rt k) (hk : k ≤ 715827882) : HasRoom rt := by
  by_cases hfull : rt.atom_free_index = 0
  · refine .inr ?_
    have hmax := h.full hfull
    rw [Growable]
    omega
  · exact .inl hfull

/-- The array grows by free entries in order. -/
theorem FreeFrom.grow (h : FreeFrom rt k) (hwf : WF rt) (hk : k ≤ 715827882) :
    FreeFrom (if rt.atom_free_index = 0 then grow rt (new_atom_size rt).toNat else rt) k := by
  by_cases hfull : rt.atom_free_index = 0
  · have hmax := h.full hfull
    have hg : Growable rt := by
      rw [Growable]
      omega
    have hsize := new_atom_size_eq hg
    rw [if_pos hfull]
    obtain ⟨n, hn⟩ : ∃ n, (new_atom_size rt).toNat = n := ⟨_, rfl⟩
    have hlt : k < n := by omega
    have hatom : (Atom.grow rt n).atom_size = n := rfl
    have hindex : (Atom.grow rt n).atom_free_index = max 1 rt.atom_size := rfl
    rw [hn]
    refine ⟨fun i => ?_, ?_, h.pos, by rw [hatom]; omega⟩
    · rw [grow_atom_get_free hwf hfull, hmax, hatom]
    · rw [hindex, hatom, if_pos hlt, hmax]
  · rw [if_neg hfull]
    exact h

/-- The hash of a predefined atom. -/
def initHash (s : JSString) : JSAtomType → ℕ
  | .SYMBOL => JS_ATOM_HASH_SYMBOL
  | .PRIVATE => JS_ATOM_HASH_PRIVATE
  | ty => atom_hash s ty

/-- The entry of a predefined atom. -/
def initInfo (x : JSAtomType × List UInt8) : Info where
  ref_count := 1
  atom_type := if x.1 = .PRIVATE then .SYMBOL else x.1
  hash := initHash (.str8 x.2) x.1
  str := .str8 x.2

/-- One predefined atom. -/
theorem __JS_NewAtomInit_spec (JS_ATOM_END : ℕ) (hwf : WF rt) (h : FreeFrom rt k)
    (hk : k ≤ 715827882) (x : JSAtomType × List UInt8)
    (hnew : x.1 ≠ .SYMBOL → x.1 ≠ .PRIVATE → ∀ j y, rt.info j = some y → y.atom_type = x.1 →
      y.str.units ≠ widen x.2) :
    ∃ rt', __JS_NewAtom JS_ATOM_END rt (.string 1 (.str8 x.2)) x.1 = some (k, rt') ∧ WF rt' ∧
      FreeFrom rt' (k + 1) ∧
      ∀ j, j ≠ 0 → rt'.info j = Function.update rt.info k (some (initInfo x)) j := by
  obtain ⟨ty, u⟩ := x
  obtain ⟨hfits, rt₁, hgrow, hwf₁, hfree₁, hinfo₁⟩ := make_room hwf (h.hasRoom hk)
  have h₁ : FreeFrom rt₁ k := hgrow ▸ h.grow hwf hk
  -- The type under which the entry is stored.
  have hentry : ∀ n ty', ty' ≠ .PRIVATE → (ty' ≠ .SYMBOL → n = atom_hash (.str8 u) ty') →
      (ty' ≠ .SYMBOL → ∀ j y, rt.info j = some y → y.atom_type = ty' → y.str.units ≠ widen u) →
      ∃ rt', new_entry rt (.string 1 (.str8 u)) n ty' = some (k, rt') ∧ WF rt' ∧
        FreeFrom rt' (k + 1) ∧ ∀ j, j ≠ 0 → rt'.info j = Function.update rt.info k (some
          { ref_count := 1, atom_type := ty', hash := n, str := .str8 u }) j := by
    intro n ty' hpriv hhash hne
    obtain ⟨i, rt', huse, -, -, hwf', hinfo', ht⟩ := use_entry_spec hwf₁ hfree₁ (c := 1)
      (s := .str8 u) (n := n) hpriv hhash fun hs j y hy hyt => by
        have hj : j ≠ 0 := by
          rintro rfl
          exact hs (hyt.symm.trans (hwf₁.entries.zero y hy))
        exact hne hs j y (hinfo₁ j hj ▸ hy) hyt
    obtain ⟨rfl, h'⟩ := h₁.take hfree₁ ht
    refine ⟨rt', ?_, hwf', h', fun j hj => ?_⟩
    · rw [new_entry, if_neg hfits, hgrow]
      exact huse
    · rw [hinfo']
      by_cases hji : j = i
      · rw [hji, Function.update_self, Function.update_self]
      · rw [Function.update_of_ne hji, Function.update_of_ne hji, hinfo₁ j hj]
  -- A text that is looked up is not found.
  have hlocate : ∀ ty', ty' ≠ .SYMBOL → ty' ≠ .PRIVATE →
      (∀ j y, rt.info j = some y → y.atom_type = ty' → y.str.units ≠ widen u) →
      locate_atom JS_ATOM_END rt (.string 1 (.str8 u)) (.str8 u) ty' =
        new_entry rt (.string 1 (.str8 u)) (atom_hash (.str8 u) ty') ty' := by
    intro ty' hs _ hne
    obtain ⟨i, hfind, hloc⟩ := find_atom_spec hwf hs (.str8 u)
    have hi : i = 0 := by
      by_contra hi
      obtain ⟨p, hp, ht, hu⟩ := hloc.found hi
      exact hne i p.info (rt.info_eq hp) ht hu
    simp [locate_atom, hfind, hi]
  cases ty with
  | STRING =>
    have hne := hnew (by simp) (by simp)
    rw [__JS_NewAtom, intern_atom, hlocate .STRING (by simp) (by simp) hne]
    exact hentry _ .STRING (by simp) (fun _ => rfl) fun _ => hne
  | GLOBAL_SYMBOL =>
    have hne := hnew (by simp) (by simp)
    rw [__JS_NewAtom, intern_atom, hlocate .GLOBAL_SYMBOL (by simp) (by simp) hne]
    exact hentry _ .GLOBAL_SYMBOL (by simp) (fun _ => rfl) fun _ => hne
  | SYMBOL => exact hentry _ .SYMBOL (by simp) (fun hs => absurd rfl hs) fun hs => absurd rfl hs
  | PRIVATE => exact hentry _ .SYMBOL (by simp) (fun hs => absurd rfl hs) fun hs => absurd rfl hs

end FreeFrom

/-! ## All of them -/

/-- No string occurs twice among the names that are looked up by their text. -/
def Distinct (js_atom_init : List (JSAtomType × List UInt8)) : Prop :=
  js_atom_init.Pairwise fun x y => x.1 ≠ .SYMBOL → x.1 ≠ .PRIVATE → x ≠ y

theorem widen_injective {u v : List UInt8} (h : widen u = widen v) : u = v := by
  refine List.map_injective_iff.mpr (fun a b hab => ?_) h
  have hnat := congrArg UInt16.toNat hab
  rw [UInt8.toNat_toUInt16, UInt8.toNat_toUInt16] at hnat
  exact UInt8.toNat_inj.mp hnat

section Init

variable {rt : JSRuntime} {js_atom_init : List (JSAtomType × List UInt8)}

/-- The table after `JS_ResizeAtomHash(rt, 256)`. -/
theorem resize_no_atoms : ∃ rt, JS_ResizeAtomHash no_atoms 256 = some rt ∧ WF rt ∧
    FreeFrom rt 1 ∧ ∀ j, rt.info j = none := by
  refine ⟨_, rfl, ⟨⟨8, rfl⟩, ?_, ?_, ⟨?_, ?_, ?_, ?_⟩, ?_, ?_, ⟨[], rfl, ?_⟩, rfl⟩, ⟨?_, rfl, ?_, ?_⟩, ?_⟩
  · intro b hb
    refine ⟨[], rfl, fun i => ?_⟩
    refine iff_of_false (by simp) ?_
    rintro ⟨x, hx, -⟩
    simp [JSRuntime.info, JSRuntime.atom, no_atoms] at hx
  all_goals simp [JSRuntime.info, JSRuntime.atom, JSRuntime.atom_get_free, no_atoms, JS_ATOM_MAX]

/-- The names are made into atoms one after the other. -/
theorem init_fold (JS_ATOM_END : ℕ) (done todo : List (JSAtomType × List UInt8)) (hwf : WF rt)
    (h : FreeFrom rt (done.length + 1)) (hlen : done.length + todo.length < 715827882)
    (hd : Distinct (done ++ todo))
    (hinfo : ∀ j, rt.info (j + 1) = (done[j]?).map initInfo) :
    ∃ rt', todo.foldlM (fun rt x => do
        let (atom, rt) ← __JS_NewAtom JS_ATOM_END rt (.string 1 (.str8 x.2)) x.1
        guard (atom ≠ JS_ATOM_NULL)
        return rt) rt = some rt' ∧ WF rt' ∧ FreeFrom rt' ((done ++ todo).length + 1) ∧
      ∀ j, rt'.info (j + 1) = ((done ++ todo)[j]?).map initInfo := by
  induction todo generalizing rt done with
  | nil =>
    rw [List.append_nil]
    exact ⟨rt, rfl, hwf, h, hinfo⟩
  | cons x todo ih =>
    have hlen' : done.length + (todo.length + 1) < 715827882 := hlen
    have hnew : x.1 ≠ .SYMBOL → x.1 ≠ .PRIVATE → ∀ j y, rt.info j = some y → y.atom_type = x.1 →
        y.str.units ≠ widen x.2 := by
      intro hs hp j y hy ht hu
      cases j with
      | zero => exact hs (ht.symm.trans (hwf.entries.zero y hy))
      | succ j =>
        rw [hinfo] at hy
        -- an entry with this text and type is that of an equal name before it
        obtain ⟨z, hz, rfl⟩ := Option.map_eq_some_iff.mp hy
        have hzt : z.1 = x.1 := by
          by_cases hzp : z.1 = .PRIVATE
          · rw [initInfo, if_pos hzp] at ht
            exact absurd ht.symm hs
          · rw [initInfo, if_neg hzp] at ht
            exact ht
        have hzx : z = x := Prod.ext hzt (widen_injective hu)
        have hmem : z ∈ done := List.mem_of_getElem? hz
        exact (List.pairwise_append.mp hd).2.2 z hmem x (by simp) (hzt ▸ hs) (hzt ▸ hp) hzx
    obtain ⟨rt₁, hrun, hwf₁, h₁, hinfo₁⟩ := __JS_NewAtomInit_spec JS_ATOM_END hwf h (by omega) x hnew
    have happ : done ++ x :: todo = (done ++ [x]) ++ todo := by simp
    obtain ⟨rt', hfold, hwf', h', hinfo'⟩ := ih (done ++ [x]) hwf₁ (by simpa using h₁)
      (by simp only [List.length_append, List.length_singleton]; omega) (happ ▸ hd) (by
        intro j
        rw [hinfo₁ _ (by omega)]
        by_cases hj : j = done.length
        · subst hj
          simp
        · rw [Function.update_of_ne (by omega), hinfo]
          by_cases hlt : j < done.length
          · rw [List.getElem?_append_left hlt]
          · rw [List.getElem?_eq_none (by omega), List.getElem?_eq_none (by simp; omega)])
    refine ⟨rt', ?_, hwf', happ ▸ h', happ ▸ hinfo'⟩
    rw [List.foldlM_cons, hrun]
    exact hfold

/-- **`JS_InitAtoms`.** The atoms of the names are their positions. -/
theorem JS_InitAtoms_spec (hlen : js_atom_init.length < 715827882) (hd : Distinct js_atom_init) :
    ∃ rt, JS_InitAtoms js_atom_init = some rt ∧ WF rt ∧
      ∀ j, rt.info (j + 1) = (js_atom_init[j]?).map initInfo := by
  obtain ⟨rt, hrun, hwf, h, hinfo⟩ := resize_no_atoms
  obtain ⟨rt', hfold, hwf', -, hinfo'⟩ := init_fold (js_atom_init.length + 1) [] js_atom_init hwf h
    (by simpa using hlen) hd (by simpa using fun j => hinfo (j + 1))
  refine ⟨rt', ?_, hwf', hinfo'⟩
  rw [JS_InitAtoms, hrun]
  exact hfold

end Init

/-! ## The names -/

/-- The names in `quickjs-atom.h` before the private ones. -/
def stringNames (CONFIG_BIGNUM CONFIG_ATOMICS : Bool) : List String :=
    ["null", "false", "true", "if", "else", "return", "var", "this", "delete", "void", "typeof",
     "new", "in", "instanceof", "do", "while", "for", "break", "continue", "switch", "case",
     "default", "throw", "try", "catch", "finally", "function", "debugger", "with", "class",
     "const", "enum", "export", "extends", "import", "super", "implements", "interface", "let",
     "package", "private", "protected", "public", "static", "yield", "await", "", "length",
     "fileName", "lineNumber", "message", "errors", "stack", "name", "toString",
     "toLocaleString", "valueOf", "eval", "prototype", "constructor", "configurable", "writable",
     "enumerable", "value", "get", "set", "of", "__proto__", "undefined", "number", "boolean",
     "string", "object", "symbol", "integer", "unknown", "arguments", "callee", "caller",
     "<eval>", "<ret>", "<var>", "<arg_var>", "<with>", "lastIndex", "target", "index", "input",
     "defineProperties", "apply", "join", "concat", "split", "construct", "getPrototypeOf",
     "setPrototypeOf", "isExtensible", "preventExtensions", "has", "deleteProperty",
     "defineProperty", "getOwnPropertyDescriptor", "ownKeys", "add", "done", "next", "values",
     "source", "flags", "global", "unicode", "raw", "new.target", "this.active_func",
     "<home_object>", "<computed_field>", "<static_computed_field>", "<class_fields_init>",
     "<brand>", "#constructor", "as", "from", "meta", "*default*", "*", "Module", "then",
     "resolve", "reject", "promise", "proxy", "revoke", "async", "exec", "groups", "status",
     "reason", "globalThis"] ++
    (if CONFIG_BIGNUM then
      ["bigint", "bigfloat", "bigdecimal", "roundingMode", "maximumSignificantDigits",
       "maximumFractionDigits"] else []) ++
    (if CONFIG_ATOMICS then
      ["not-equal", "timed-out", "ok"] else []) ++
    ["toJSON", "Object", "Array", "Error", "Number", "String", "Boolean", "Symbol", "Arguments",
     "Math", "JSON", "Date", "Function", "GeneratorFunction", "ForInIterator", "RegExp",
     "ArrayBuffer", "SharedArrayBuffer", "Uint8ClampedArray", "Int8Array", "Uint8Array",
     "Int16Array", "Uint16Array", "Int32Array", "Uint32Array"] ++
    (if CONFIG_BIGNUM then
      ["BigInt64Array", "BigUint64Array"] else []) ++
    ["Float32Array", "Float64Array", "DataView"] ++
    (if CONFIG_BIGNUM then
      ["BigInt", "BigFloat", "BigFloatEnv", "BigDecimal", "OperatorSet", "Operators"] else []) ++
    ["Map", "Set", "WeakMap", "WeakSet", "Map Iterator", "Set Iterator", "Array Iterator",
     "String Iterator", "RegExp String Iterator", "Generator", "Proxy", "Promise",
     "PromiseResolveFunction", "PromiseRejectFunction", "AsyncFunction", "AsyncFunctionResolve",
     "AsyncFunctionReject", "AsyncGeneratorFunction", "AsyncGenerator", "EvalError",
     "RangeError", "ReferenceError", "SyntaxError", "TypeError", "URIError", "InternalError"]

/-- The names behind the private one. -/
def symbolNames (CONFIG_BIGNUM : Bool) : List String :=
    ["Symbol.toPrimitive", "Symbol.iterator", "Symbol.match", "Symbol.matchAll",
     "Symbol.replace", "Symbol.search", "Symbol.split", "Symbol.toStringTag",
     "Symbol.isConcatSpreadable", "Symbol.hasInstance", "Symbol.species", "Symbol.unscopables",
     "Symbol.asyncIterator"] ++
    (if CONFIG_BIGNUM then
      ["Symbol.operatorSet"] else [])

/-- The characters of a name; all of them are ASCII. -/
def bytes (name : String) : List UInt8 := name.toList.map fun c => UInt8.ofNat c.toNat

/-- `js_atom_init`, with the type that `JS_InitAtoms` gives to each position. -/
def js_atom_init (CONFIG_BIGNUM CONFIG_ATOMICS : Bool) : List (JSAtomType × List UInt8) :=
  (stringNames CONFIG_BIGNUM CONFIG_ATOMICS).map (fun name => (.STRING, bytes name)) ++
    (.PRIVATE, bytes "<brand>") :: (symbolNames CONFIG_BIGNUM).map fun name => (.SYMBOL, bytes name)

/-- `JS_ATOM_END`, and `JS_ATOM_empty_string`, the first name after the keywords. -/
def predefined (CONFIG_BIGNUM CONFIG_ATOMICS : Bool) : Predefined where
  JS_ATOM_END := (js_atom_init CONFIG_BIGNUM CONFIG_ATOMICS).length + 1
  JS_ATOM_empty_string := 47
  pos := by decide
  lt := by cases CONFIG_BIGNUM <;> cases CONFIG_ATOMICS <;> decide +kernel

/-- No two elements have the same hash, and none has one of the bits of `seen`. -/
def collisionFree {α : Type} (hash : α → ℕ) : List α → ℕ → Bool
  | [], _ => true
  | x :: l, seen => !seen.testBit (hash x) && collisionFree hash l (seen ||| 2 ^ hash x)

theorem pairwise_of_collisionFree {α : Type} {hash : α → ℕ} {l : List α} {seen : ℕ}
    (h : collisionFree hash l seen = true) :
    (l.Pairwise fun x y => hash x ≠ hash y) ∧ ∀ x ∈ l, seen.testBit (hash x) = false := by
  induction l generalizing seen with
  | nil => exact ⟨List.Pairwise.nil, fun x hx => absurd hx List.not_mem_nil⟩
  | cons x l ih =>
    rw [collisionFree, Bool.and_eq_true, Bool.not_eq_true'] at h
    obtain ⟨hrest, hbits⟩ := ih h.2
    have hboth : ∀ y ∈ l, seen.testBit (hash y) = false ∧ hash x ≠ hash y := by
      intro y hy
      have := hbits y hy
      rw [Nat.testBit_or, Bool.or_eq_false_iff, Nat.testBit_two_pow] at this
      exact ⟨this.1, of_decide_eq_false this.2⟩
    refine ⟨List.Pairwise.cons (fun y hy => (hboth y hy).2) hrest, ?_⟩
    intro y hy
    rcases List.mem_cons.mp hy with rfl | hy
    · exact h.1
    · exact (hboth y hy).1

/-- A hash without collisions on the names, so that they need not be compared in pairs. -/
def nameHash (x : JSAtomType × List UInt8) : ℕ :=
  x.2.foldl (fun h c => h * 256 + c.toNat) x.1.toUInt32.toNat % 3053

section Names

variable (CONFIG_BIGNUM CONFIG_ATOMICS : Bool)

theorem sublist_ite {α : Type} (c : Bool) (l : List α) : (if c then l else []).Sublist l := by
  cases c
  · exact List.nil_sublist l
  · exact List.Sublist.refl l

/-- A configuration leaves names out. -/
theorem js_atom_init_sublist :
    (js_atom_init CONFIG_BIGNUM CONFIG_ATOMICS).Sublist (js_atom_init true true) := by
  have hstrings : (stringNames CONFIG_BIGNUM CONFIG_ATOMICS).Sublist (stringNames true true) :=
    ((((((List.Sublist.refl _).append (sublist_ite _ _)).append (sublist_ite _ _)).append
      (List.Sublist.refl _)).append (sublist_ite _ _)).append (List.Sublist.refl _)).append
      (sublist_ite _ _) |>.append (List.Sublist.refl _)
  have hsymbols : (symbolNames CONFIG_BIGNUM).Sublist (symbolNames true) :=
    (List.Sublist.refl _).append (sublist_ite _ _)
  exact (hstrings.map _).append ((hsymbols.map _).cons_cons _)

theorem js_atom_init_distinct : Distinct (js_atom_init CONFIG_BIGNUM CONFIG_ATOMICS) := by
  have hall : collisionFree nameHash (js_atom_init true true) 0 = true := by decide +kernel
  have hne : Distinct (js_atom_init true true) :=
    (pairwise_of_collisionFree hall).1.imp fun h _ _ heq => h (congrArg nameHash heq)
  exact List.Pairwise.sublist (js_atom_init_sublist CONFIG_BIGNUM CONFIG_ATOMICS) hne

/-- No name begins with a digit, and none is a symbol of the registry. -/
theorem js_atom_init_names {x : JSAtomType × List UInt8}
    (hx : x ∈ js_atom_init CONFIG_BIGNUM CONFIG_ATOMICS) :
    x.2.head?.any is_digit = false ∧ x.1 ≠ .GLOBAL_SYMBOL := by
  have hall : ∀ x ∈ js_atom_init true true, x.2.head?.any is_digit = false ∧ x.1 ≠ .GLOBAL_SYMBOL := by
    decide +kernel
  exact hall x ((js_atom_init_sublist CONFIG_BIGNUM CONFIG_ATOMICS).subset hx)

end Names

/-- Nothing is owned. -/
def Owned.nothing : Owned := ⟨fun _ => 0, fun _ => 0⟩

/-- **The table of a new runtime** is settled, and `JS_ATOM_x` is the atom of the name at its
position. -/
theorem JS_InitAtoms_settled (CONFIG_BIGNUM CONFIG_ATOMICS : Bool) :
    ∃ rt, JS_InitAtoms (js_atom_init CONFIG_BIGNUM CONFIG_ATOMICS) = some rt ∧
      Settled (predefined CONFIG_BIGNUM CONFIG_ATOMICS) rt .nothing ∧
      ∀ j, rt.info (j + 1) = ((js_atom_init CONFIG_BIGNUM CONFIG_ATOMICS)[j]?).map initInfo := by
  have hlen : (js_atom_init CONFIG_BIGNUM CONFIG_ATOMICS).length < 715827882 := by
    cases CONFIG_BIGNUM <;> cases CONFIG_ATOMICS <;> decide +kernel
  obtain ⟨rt, hrun, hwf, hinfo⟩ :=
    JS_InitAtoms_spec hlen (js_atom_init_distinct CONFIG_BIGNUM CONFIG_ATOMICS)
  have hend : (predefined CONFIG_BIGNUM CONFIG_ATOMICS).JS_ATOM_END =
    (js_atom_init CONFIG_BIGNUM CONFIG_ATOMICS).length + 1 := rfl
  -- An entry is that of a name.
  have hname : ∀ i x, i ≠ 0 → rt.info i = some x →
      i < (predefined CONFIG_BIGNUM CONFIG_ATOMICS).JS_ATOM_END ∧
        ∃ y ∈ js_atom_init CONFIG_BIGNUM CONFIG_ATOMICS, x = initInfo y := by
    intro i x hi hx
    obtain ⟨j, rfl⟩ := Nat.exists_eq_succ_of_ne_zero hi
    rw [hinfo] at hx
    obtain ⟨y, hy, rfl⟩ := Option.map_eq_some_iff.mp hx
    obtain ⟨hj, -⟩ := List.getElem?_eq_some_iff.mp hy
    exact ⟨by omega, y, List.mem_of_getElem? hy, rfl⟩
  refine ⟨rt, hrun, ⟨hwf, ⟨?_, fun _ _ _ => ⟨rfl, rfl⟩, ?_⟩, ?_, ?_⟩, hinfo⟩
  · intro i x hi hx
    obtain ⟨hlt, y, -, rfl⟩ := hname i x hi hx
    have hconst := (isConst_iff (predefined CONFIG_BIGNUM CONFIG_ATOMICS) (by omega)).mpr hlt
    have hone : Owned.nothing.count (predefined CONFIG_BIGNUM CONFIG_ATOMICS) i = 1 := by
      rw [Owned.count, if_pos hconst]
      rfl
    rw [hone]
    exact ⟨rfl, Nat.one_pos⟩
  · intro i hi hlt
    obtain ⟨j, rfl⟩ := Nat.exists_eq_succ_of_ne_zero hi
    rw [Nat.succ_eq_add_one, hinfo, List.getElem?_eq_getElem (by omega)]
    rfl
  · intro i x n hx ht _
    have hi : i ≠ 0 := by
      rintro rfl
      rw [hwf.entries.zero x hx] at ht
      cases ht
    obtain ⟨-, y, hy, rfl⟩ := hname i x hi hx
    exact ne_decimal_of_head (js_atom_init_names CONFIG_BIGNUM CONFIG_ATOMICS hy).1 n
  · intro i x _ hx hglobal
    by_cases hi : i = 0
    · subst hi
      rw [hwf.entries.zero x hx] at hglobal
      cases hglobal
    · obtain ⟨-, y, hy, rfl⟩ := hname i x hi hx
      by_cases hp : y.1 = .PRIVATE
      · rw [initInfo, if_pos hp] at hglobal
        cases hglobal
      · rw [initInfo, if_neg hp] at hglobal
        exact (js_atom_init_names CONFIG_BIGNUM CONFIG_ATOMICS hy).2 hglobal

end QuickJSSwift.Atom
