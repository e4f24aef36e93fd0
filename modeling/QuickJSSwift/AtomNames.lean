/-
The names of atoms.

What `JSAtom` stands for is the key of a property: a string, a symbol of the registry, or a
symbol. A string that is the decimal form of a number up to `JS_ATOM_MAX_INT` is not in the
table at all, its atom is the number with a tag. So there are two ways in which an atom of a
string is written, and the functions that make atoms have to agree on which one is used.

They do: `is_num_string` accepts the decimal forms and nothing else, and every function looks
at the range first. Then a string has one atom, whichever way it was asked for.
-/
import QuickJSSwift.AtomOps
import Mathlib.Tactic.IntervalCases
import Mathlib.Tactic.Ring

set_option autoImplicit false
set_option linter.style.nameCheck false

namespace QuickJSSwift.Atom

open Linked Text

/-! ## Numbers -/

/-- `is_num`. -/
def is_num (c : UInt16) : Bool := 0x30 ≤ c && c ≤ 0x39

/-- The loop of `is_num_string`, from the second character on. -/
def is_num_loop : List UInt16 → ℕ → Option ℕ
  | [], n => some n
  | c :: p, n =>
    if !is_num c then none
    else
      let n64 := n * 10 + (c.toNat - 0x30)
      if n64 >>> 32 ≠ 0 then none else is_num_loop p n64

/-- `is_num_string`. -/
def is_num_string (p : JSString) : Option ℕ :=
  let len := JSString_len p
  if len = 0 ∨ 10 < len then none
  else match p.units with
    | [] => none
    | c :: r =>
      if is_num c then
        if c = 0x30 then
          if len ≠ 1 then none else some 0
        else is_num_loop r (c.toNat - 0x30)
      else none

/-- What `snprintf` writes for `"%u"`. -/
def decimal (n : ℕ) : List UInt8 := (Nat.toDigits 10 n).map fun c => UInt8.ofNat c.toNat

/-- What `snprintf` writes for `"%" PRId64`. -/
def signedDecimal (n : ℤ) : List UInt8 :=
  if n < 0 then 0x2d :: decimal n.natAbs else decimal n.toNat

/-- The characters. -/
def widen (s : List UInt8) : List UInt16 := s.map UInt8.toUInt16

section Numbers

variable {n d : ℕ} {c : UInt16} {p : List UInt16}

/-- A digit as a character. -/
def digit (d : ℕ) : UInt16 := UInt16.ofNat (0x30 + d)

theorem digit_toNat (hd : d < 10) : (digit d).toNat = 0x30 + d := by
  rw [digit, UInt16.toNat_ofNat']
  exact Nat.mod_eq_of_lt (by omega)

theorem digit_injective {e : ℕ} (he : e < 10) (hd : d < 10) (h : digit e = digit d) : e = d := by
  have hnat := congrArg UInt16.toNat h
  rw [digit_toNat he, digit_toNat hd] at hnat
  exact Nat.add_left_cancel hnat

theorem is_num_iff : is_num c = true ↔ ∃ d < 10, c = digit d := by
  rw [is_num, Bool.and_eq_true, decide_eq_true_eq, decide_eq_true_eq, UInt16.le_iff_toNat_le,
    UInt16.le_iff_toNat_le]
  simp only [UInt16.reduceToNat]
  constructor
  · rintro ⟨hlo, hhi⟩
    refine ⟨c.toNat - 0x30, by omega, UInt16.toNat_inj.mp ?_⟩
    rw [digit_toNat (by omega)]
    omega
  · rintro ⟨d, hd, rfl⟩
    rw [digit_toNat hd]
    omega

theorem decimal_of_lt (hd : d < 10) : widen (decimal d) = [digit d] := by
  interval_cases d <;> decide

/-- One more digit. -/
theorem decimal_append (hn : 0 < n) (hd : d < 10) :
    widen (decimal (n * 10 + d)) = widen (decimal n) ++ [digit d] := by
  rw [← decimal_of_lt hd, widen, widen, widen, decimal, decimal, decimal, ← List.map_append,
    ← List.map_append, Nat.toDigits_append_toDigits (by omega) hn hd, Nat.mul_comm]

/-- The value of digits behind a number. -/
def value (ds : List ℕ) (n : ℕ) : ℕ := ds.foldl (fun n d => n * 10 + d) n

theorem le_value (ds : List ℕ) (n : ℕ) : n * 10 ^ ds.length ≤ value ds n := by
  induction ds generalizing n with
  | nil => simp [value]
  | cons d ds ih =>
    have h := ih (n * 10 + d)
    calc n * 10 ^ (d :: ds).length = n * 10 * 10 ^ ds.length := by
          rw [List.length_cons, pow_succ]
          ring
      _ ≤ (n * 10 + d) * 10 ^ ds.length := Nat.mul_le_mul_right _ (by omega)
      _ ≤ value ds (n * 10 + d) := h

theorem decimal_value {ds : List ℕ} (hn : 0 < n) (hds : ∀ d ∈ ds, d < 10) :
    widen (decimal (value ds n)) = widen (decimal n) ++ ds.map digit := by
  induction ds generalizing n with
  | nil => simp [value]
  | cons d ds ih =>
    have hd := hds d (by simp)
    have hpos : 0 < n * 10 + d := by omega
    have hrest := ih hpos fun e he => hds e (by simp [he])
    rw [decimal_append hn hd, List.append_assoc] at hrest
    exact hrest

/-- The decimal form of a positive number begins with another digit than zero. -/
theorem exists_digits (hn : 0 < n) :
    ∃ d ds, 0 < d ∧ d < 10 ∧ (∀ e ∈ ds, e < 10) ∧ value ds d = n := by
  induction n using Nat.strong_induction_on with
  | _ n ih =>
    by_cases hlt : n < 10
    · exact ⟨n, [], hn, hlt, by simp, rfl⟩
    · obtain ⟨d, ds, hd, hd', hds, hv⟩ := ih (n / 10) (by omega) (by omega)
      refine ⟨d, ds ++ [n % 10], hd, hd', ?_, ?_⟩
      · intro e he
        rcases List.mem_append.mp he with he | he
        · exact hds e he
        · obtain rfl := List.mem_singleton.mp he
          exact Nat.mod_lt _ (by omega)
      · rw [value, List.foldl_append]
        change value ds d * 10 + n % 10 = n
        omega

/-- The loop accepts the digits of a number that does not overflow. -/
theorem is_num_loop_iff {m : ℕ} (hn : n < 2 ^ 32) :
    is_num_loop p n = some m ↔
      ∃ ds, (∀ d ∈ ds, d < 10) ∧ p = ds.map digit ∧ value ds n = m ∧ m < 2 ^ 32 := by
  induction p generalizing n with
  | nil =>
    rw [is_num_loop]
    constructor
    · intro h
      obtain rfl := Option.some.inj h
      exact ⟨[], by simp, rfl, rfl, hn⟩
    · rintro ⟨ds, -, hp, hv, -⟩
      obtain rfl := List.map_eq_nil_iff.mp hp.symm
      exact congrArg some hv
  | cons c p ih =>
    rw [is_num_loop]
    by_cases hc : is_num c = true
    · obtain ⟨d, hd, rfl⟩ := is_num_iff.mp hc
      have hsub : (digit d).toNat - 0x30 = d := by
        rw [digit_toNat hd]
        omega
      simp only [hc, hsub, Bool.not_true, Bool.false_eq_true, if_false]
      by_cases hover : (n * 10 + d) >>> 32 = 0
      · have hlt : n * 10 + d < 2 ^ 32 := by
          rw [Nat.shiftRight_eq_div_pow] at hover
          omega
        rw [if_neg (not_not.mpr hover), ih hlt]
        constructor
        · rintro ⟨ds, hds, rfl, hv, hm⟩
          exact ⟨d :: ds, by simpa using ⟨hd, hds⟩, rfl, hv, hm⟩
        · rintro ⟨ds, hds, hp, hv, hm⟩
          cases ds with
          | nil => simp at hp
          | cons e ds =>
            obtain ⟨he, htail⟩ := List.cons.inj hp
            obtain rfl := digit_injective (hds e (by simp)) hd he.symm
            exact ⟨ds, fun e he => hds e (by simp [he]), htail, hv, hm⟩
      · -- more digits do not make the number smaller again
        rw [if_pos hover]
        refine iff_of_false (by simp) ?_
        rintro ⟨ds, hds, hp, hv, hm⟩
        cases ds with
        | nil => simp at hp
        | cons e ds =>
          obtain ⟨he, -⟩ := List.cons.inj hp
          obtain rfl := digit_injective (hds e (by simp)) hd he.symm
          have hle := le_value ds (n * 10 + e)
          have hpow : 0 < 10 ^ ds.length := by positivity
          have hge : n * 10 + e ≤ (n * 10 + e) * 10 ^ ds.length := Nat.le_mul_of_pos_right _ hpow
          have hv' : value ds (n * 10 + e) = m := hv
          rw [Nat.shiftRight_eq_div_pow] at hover
          omega
    · simp only [hc, Bool.not_false, if_true]
      refine iff_of_false (by simp) ?_
      rintro ⟨ds, hds, hp, -⟩
      cases ds with
      | nil => simp at hp
      | cons e ds =>
        obtain ⟨he, -⟩ := List.cons.inj hp
        exact hc (is_num_iff.mpr ⟨e, hds e (by simp), he⟩)

/-- **`is_num_string`** accepts the decimal forms of the numbers below `2 ^ 32`, and nothing
else: no leading zeros, no sign, no overflow. -/
theorem is_num_string_iff (s : JSString) (n : ℕ) :
    is_num_string s = some n ↔ n < 2 ^ 32 ∧ s.units = widen (decimal n) := by
  rw [is_num_string, JSString_len]
  constructor
  · intro h
    split at h
    · simp at h
    · next hlen =>
      split at h
      · simp at h
      · next c r hu =>
        rw [hu] at hlen h
        split at h
        · next hc =>
          obtain ⟨d, hd, rfl⟩ := is_num_iff.mp hc
          split at h
          · next hzero =>
            split at h
            · simp at h
            · next hone =>
              obtain rfl := Option.some.inj h
              have hr : r = [] := by simpa using hone
              have hz : widen (decimal 0) = [0x30] := by decide
              exact ⟨by norm_num, by rw [hu, hr, hzero, hz]⟩
          · next hne =>
            have hpos : 0 < d := by
              rcases Nat.eq_zero_or_pos d with rfl | hpos
              · exact absurd rfl hne
              · exact hpos
            have hsub : (digit d).toNat - 0x30 = d := by
              rw [digit_toNat hd]
              omega
            rw [hsub] at h
            obtain ⟨ds, hds, rfl, rfl, hlt⟩ := (is_num_loop_iff (by omega)).mp h
            refine ⟨hlt, ?_⟩
            rw [hu, decimal_value hpos hds, decimal_of_lt hd]
            rfl
        · simp at h
  · rintro ⟨hlt, hu⟩
    rcases Nat.eq_zero_or_pos n with rfl | hpos
    · have hz : widen (decimal 0) = [0x30] := by decide
      rw [hu, hz]
      decide
    · obtain ⟨d, ds, hd, hd', hds, rfl⟩ := exists_digits hpos
      rw [decimal_value hd hds, decimal_of_lt hd', List.singleton_append] at hu
      -- eleven digits without leading zeros are too many
      have hlen : ds.length ≤ 9 := by
        by_contra hlong
        have hle := le_value ds d
        have hpow : 10 ^ 10 ≤ 10 ^ ds.length := Nat.pow_le_pow_right (by omega) (by omega)
        have hge : 10 ^ ds.length ≤ d * 10 ^ ds.length := Nat.le_mul_of_pos_left _ hd
        omega
      have hnum : is_num (digit d) = true := is_num_iff.mpr ⟨d, hd', rfl⟩
      have hne : digit d ≠ 0x30 := by
        intro h
        have := congrArg UInt16.toNat h
        rw [digit_toNat hd'] at this
        simp only [UInt16.reduceToNat] at this
        omega
      have hsub : (digit d).toNat - 0x30 = d := by
        rw [digit_toNat hd']
        omega
      rw [hu]
      have hlen' : ¬ ((digit d :: ds.map digit).length = 0 ∨ 10 < (digit d :: ds.map digit).length) := by
        simp only [List.length_cons, List.length_map]
        omega
      simp only [if_neg hlen', hnum, if_true, if_neg hne, hsub]
      exact (is_num_loop_iff (by omega)).mpr ⟨ds, hds, rfl, rfl, hlt⟩

/-- The decimal form can be read back. -/
theorem value_decimal (n : ℕ) :
    value ((widen (decimal n)).map fun c => c.toNat - 0x30) 0 = n := by
  have hback : ∀ ds : List ℕ, (∀ d ∈ ds, d < 10) →
      (ds.map digit).map (fun c => c.toNat - 0x30) = ds := by
    intro ds hds
    have hid : ds.map ((fun c => c.toNat - 0x30) ∘ digit) = ds.map id :=
      List.map_congr_left fun d hd => by
        rw [Function.comp_apply, digit_toNat (hds d hd)]
        exact Nat.add_sub_cancel_left ..
    rw [List.map_map, hid, List.map_id]
  rcases Nat.eq_zero_or_pos n with rfl | hn
  · decide
  · obtain ⟨d, ds, hd, hd', hds, rfl⟩ := exists_digits hn
    rw [decimal_value hd hds, decimal_of_lt hd', List.singleton_append, ← List.map_cons,
      hback (d :: ds) (by simpa using ⟨hd', hds⟩), value, List.foldl_cons, Nat.zero_mul, Nat.zero_add]
    rfl

theorem decimal_injective {m : ℕ} (h : widen (decimal n) = widen (decimal m)) : n = m := by
  rw [← value_decimal n, h, value_decimal]

end Numbers

/-! ## Atoms of numbers -/

def JS_ATOM_TAG_INT : ℕ := 2 ^ 31
def JS_ATOM_MAX_INT : ℕ := JS_ATOM_TAG_INT - 1

/-- `__JS_AtomIsTaggedInt`. -/
def __JS_AtomIsTaggedInt (v : ℕ) : Prop := v &&& JS_ATOM_TAG_INT ≠ 0

instance (v : ℕ) : Decidable (__JS_AtomIsTaggedInt v) :=
  inferInstanceAs (Decidable (v &&& JS_ATOM_TAG_INT ≠ 0))

/-- `__JS_AtomFromUInt32`. -/
def __JS_AtomFromUInt32 (v : ℕ) : ℕ := v ||| JS_ATOM_TAG_INT

/-- `__JS_AtomToUInt32`; the complement of the tag is `JS_ATOM_MAX_INT`. -/
def __JS_AtomToUInt32 (atom : ℕ) : ℕ := atom &&& JS_ATOM_MAX_INT

section Functions

variable (JS_ATOM_END : ℕ)

/-- `JS_NewAtomStr`. -/
def JS_NewAtomStr (rt : JSRuntime) (p : StringPtr) : Option (ℕ × JSRuntime) := do
  let s ← p.str rt
  match (is_num_string s).filter (· ≤ JS_ATOM_MAX_INT) with
  | some n => do
    let rt ← js_free_string rt p
    return (__JS_AtomFromUInt32 n, rt)
  | none => __JS_NewAtom JS_ATOM_END rt p .STRING

/-- What is done with the result of `JS_NewString`, which may be an exception. -/
def ofNewString (rt : JSRuntime) (make : StringPtr → Option (ℕ × JSRuntime)) :
    Option JSString → Option (ℕ × JSRuntime)
  | none => some (JS_ATOM_NULL, rt)
  | some s => make (.string 1 s)

/-- `JS_NewAtomLen`. -/
def JS_NewAtomLen (rt : JSRuntime) (str : List UInt8) : Option (ℕ × JSRuntime) := do
  let (atom, rt) ← (if str.head?.any is_digit then some (JS_ATOM_NULL, rt)
    else __JS_FindAtom JS_ATOM_END rt str)
  if atom ≠ JS_ATOM_NULL then return (atom, rt)
  else ofNewString rt (JS_NewAtomStr JS_ATOM_END rt) (JS_NewStringLen str)

/-- `JS_NewAtom`. -/
def JS_NewAtom (rt : JSRuntime) (str : List UInt8) : Option (ℕ × JSRuntime) :=
  JS_NewAtomLen JS_ATOM_END rt (cString str)

/-- `JS_NewAtomUInt32`. -/
def JS_NewAtomUInt32 (rt : JSRuntime) (n : ℕ) : Option (ℕ × JSRuntime) :=
  if n ≤ JS_ATOM_MAX_INT then some (__JS_AtomFromUInt32 n, rt)
  else ofNewString rt (__JS_NewAtom JS_ATOM_END rt · .STRING) (JS_NewString (decimal n))

/-- `JS_NewAtomInt64`; the number is compared as an unsigned one. -/
def JS_NewAtomInt64 (rt : JSRuntime) (n : ℤ) : Option (ℕ × JSRuntime) :=
  if n % 2 ^ 64 ≤ JS_ATOM_MAX_INT then some (__JS_AtomFromUInt32 (n % 2 ^ 32).toNat, rt)
  else ofNewString rt (__JS_NewAtom JS_ATOM_END rt · .STRING) (JS_NewString (signedDecimal n))

/-- `JS_NewSymbol`. The value is a pointer to the entry. -/
def JS_NewSymbol (rt : JSRuntime) (p : StringPtr) (atom_type : JSAtomType) :
    Option (ℕ × JSRuntime) :=
  __JS_NewAtom JS_ATOM_END rt p atom_type

/-- `JS_NewSymbolFromAtom`. -/
def JS_NewSymbolFromAtom (rt : JSRuntime) (descr : ℕ) (atom_type : JSAtomType) :
    Option (ℕ × JSRuntime) := do
  guard (¬ __JS_AtomIsTaggedInt descr)
  guard (descr < rt.atom_size)
  let rt ← rt.add_ref descr 1
  JS_NewSymbol JS_ATOM_END rt (.atom descr) atom_type

/-- A value made of an atom: a string that is not in the table, or a pointer to an entry, as a
string or as a symbol. -/
inductive AtomValue
  | new (s : JSString)
  | string (a : ℕ)
  | symbol (a : ℕ)
  deriving DecidableEq, Repr

/-- `__JS_AtomToValue`; `none` inside is `JS_EXCEPTION`. -/
def __JS_AtomToValue (JS_ATOM_empty_string : ℕ) (rt : JSRuntime) (atom : ℕ) (force_string : Bool) :
    Option (Option AtomValue × JSRuntime) :=
  if __JS_AtomIsTaggedInt atom then
    some ((JS_NewString (decimal (__JS_AtomToUInt32 atom))).map .new, rt)
  else do
    guard (atom < rt.atom_size)
    let p ← rt.atom atom
    if p.atom_type = .STRING then
      let rt ← rt.add_ref atom 1
      return (some (.string atom), rt)
    else if force_string then
      -- no description string
      let a := if p.str = .str16 [] then JS_ATOM_empty_string else atom
      let rt ← rt.add_ref a 1
      return (some (.string a), rt)
    else
      let rt ← rt.add_ref atom 1
      return (some (.symbol atom), rt)

/-- `js_symbol_to_atom`. -/
def js_symbol_to_atom (rt : JSRuntime) (a : ℕ) : Option ℕ := js_get_atom_index rt a

/-- `JS_AtomIsArrayIndex`. -/
def JS_AtomIsArrayIndex (rt : JSRuntime) (atom : ℕ) : Option (Option ℕ) :=
  if __JS_AtomIsTaggedInt atom then some (some (__JS_AtomToUInt32 atom))
  else do
    guard (atom < rt.atom_size)
    let p ← rt.atom atom
    if p.atom_type = .STRING then
      return (is_num_string p.str).filter (· ≠ 2 ^ 32 - 1)
    else return none

end Functions

section Tags

variable {n : ℕ}

theorem fromUInt32_eq (hn : n ≤ JS_ATOM_MAX_INT) : __JS_AtomFromUInt32 n = n + 2 ^ 31 := by
  rw [JS_ATOM_MAX_INT, JS_ATOM_TAG_INT] at hn
  have h := Nat.two_pow_add_eq_or_of_lt (i := 31) (b := n) (by omega) 1
  rw [__JS_AtomFromUInt32, JS_ATOM_TAG_INT, Nat.or_comm, Nat.add_comm]
  rw [Nat.mul_one] at h
  exact h.symm

theorem isTaggedInt_fromUInt32 (n : ℕ) : __JS_AtomIsTaggedInt (__JS_AtomFromUInt32 n) := by
  have hbit : (__JS_AtomFromUInt32 n &&& JS_ATOM_TAG_INT).testBit 31 = true := by
    rw [__JS_AtomFromUInt32, JS_ATOM_TAG_INT, Nat.testBit_and, Nat.testBit_or, Nat.testBit_two_pow_self,
      Bool.or_true, Bool.and_true]
  intro hzero
  simp [hzero] at hbit

theorem toUInt32_fromUInt32 (hn : n ≤ JS_ATOM_MAX_INT) :
    __JS_AtomToUInt32 (__JS_AtomFromUInt32 n) = n := by
  have hmask : JS_ATOM_MAX_INT = 2 ^ 31 - 1 := rfl
  rw [fromUInt32_eq hn, __JS_AtomToUInt32, hmask, Nat.and_two_pow_sub_one_eq_mod]
  rw [hmask] at hn
  omega

theorem toUInt32_le (v : ℕ) : __JS_AtomToUInt32 v ≤ JS_ATOM_MAX_INT := Nat.and_le_right

/-- A tagged atom is one of a number. -/
theorem fromUInt32_toUInt32 {v : ℕ} (hv : v < 2 ^ 32) (h : __JS_AtomIsTaggedInt v) :
    __JS_AtomFromUInt32 (__JS_AtomToUInt32 v) = v := by
  have hmask : JS_ATOM_MAX_INT = 2 ^ 31 - 1 := rfl
  have hge : 2 ^ 31 ≤ v := by
    by_contra hlt
    refine h (Nat.eq_of_testBit_eq fun i => ?_)
    rw [JS_ATOM_TAG_INT, Nat.testBit_and, Nat.testBit_two_pow, Nat.zero_testBit]
    by_cases hi : 31 = i
    · subst hi
      simp [Nat.testBit_eq_false_of_lt (Nat.lt_of_not_le hlt)]
    · simp [hi]
  rw [fromUInt32_eq (toUInt32_le v), __JS_AtomToUInt32, hmask, Nat.and_two_pow_sub_one_eq_mod]
  omega

/-- The index of an entry has no tag. -/
theorem not_isTaggedInt {v : ℕ} (hv : v < 2 ^ 31) : ¬ __JS_AtomIsTaggedInt v := by
  refine not_not.mpr (Nat.eq_of_testBit_eq fun i => ?_)
  rw [JS_ATOM_TAG_INT, Nat.testBit_and, Nat.testBit_two_pow, Nat.zero_testBit]
  by_cases hi : 31 = i
  · subst hi
    simp [Nat.testBit_eq_false_of_lt hv]
  · simp [hi]

end Tags

/-! ## Keys -/

/-- The key of a property. -/
inductive Key
  /-- A string. -/
  | string (units : List UInt16)
  /-- A symbol of the registry. -/
  | registered (units : List UInt16)
  /-- A symbol of its own. -/
  | symbol (i : ℕ)
  deriving DecidableEq, Repr

/-- What an entry is the key of. -/
def Info.key (i : ℕ) (x : Info) : Key :=
  match x.atom_type with
  | .STRING => .string x.str.units
  | .GLOBAL_SYMBOL => .registered x.str.units
  | _ => .symbol i

/-- What an atom stands for. -/
def key (info : ℕ → Option Info) (v : ℕ) : Option Key :=
  if __JS_AtomIsTaggedInt v then some (.string (widen (decimal (__JS_AtomToUInt32 v))))
  else (info v).map (Info.key v)

/-- No entry has the text of a number that is written with a tag. -/
def Canonical (info : ℕ → Option Info) : Prop :=
  ∀ i x n, info i = some x → x.atom_type = .STRING → n ≤ JS_ATOM_MAX_INT →
    x.str.units ≠ widen (decimal n)

section Keys

variable {info info' : ℕ → Option Info} {v w n : ℕ} {k : Key}

theorem lt_of_le_max_int (hn : n ≤ JS_ATOM_MAX_INT) : n < 2 ^ 32 := by
  have hmask : JS_ATOM_MAX_INT = 2 ^ 31 - 1 := rfl
  rw [hmask] at hn
  omega

theorem key_number (hn : n ≤ JS_ATOM_MAX_INT) :
    key info (__JS_AtomFromUInt32 n) = some (.string (widen (decimal n))) := by
  rw [key, if_pos (isTaggedInt_fromUInt32 n), toUInt32_fromUInt32 hn]

theorem key_entry (hv : v < 2 ^ 31) : key info v = (info v).map (Info.key v) :=
  if_neg (not_isTaggedInt hv)

/-- Two entries are not the same key. -/
theorem Entries.key_injective (h : Entries info) {x y : Info} (hx : info v = some x)
    (hy : info w = some y) (hk : x.key v = y.key w) : v = w := by
  have hxs := h.stored v x hx
  have hys := h.stored w y hy
  rw [Info.key, Info.key] at hk
  cases hxt : x.atom_type with
  | PRIVATE => exact absurd hxt hxs
  | SYMBOL => cases hyt : y.atom_type <;> simp_all
  | STRING =>
    cases hyt : y.atom_type with
    | STRING =>
      simp only [hxt, hyt, Key.string.injEq] at hk
      exact h.unique v w x y hx hy (by simp [hxt]) (hxt.trans hyt.symm) hk
    | _ => simp [hxt, hyt] at hk
  | GLOBAL_SYMBOL =>
    cases hyt : y.atom_type with
    | GLOBAL_SYMBOL =>
      simp only [hxt, hyt, Key.registered.injEq] at hk
      exact h.unique v w x y hx hy (by simp [hxt]) (hxt.trans hyt.symm) hk
    | _ => simp [hxt, hyt] at hk

/-- Entry 0 is a symbol. -/
theorem Entries.ne_zero (h : Entries info) {units : List UInt16}
    (hk : key info v = some (.string units)) : v ≠ 0 := by
  rintro rfl
  rw [key_entry (by omega)] at hk
  obtain ⟨x, hx, hstring⟩ := Option.map_eq_some_iff.mp hk
  rw [Info.key, h.zero x hx] at hstring
  cases hstring

theorem Canonical.ne_number (h : Canonical info) {x : Info} (hx : info v = some x)
    (hn : n ≤ JS_ATOM_MAX_INT) : x.key v ≠ .string (widen (decimal n)) := by
  intro hk
  rw [Info.key] at hk
  cases hxt : x.atom_type with
  | STRING =>
    simp only [hxt, Key.string.injEq] at hk
    exact h v x n hx hxt hn hk
  | _ => simp [hxt] at hk

/-- **One atom for a key.** -/
theorem key_injective (h : Entries info) (hc : Canonical info) (hv : v < 2 ^ 32) (hw : w < 2 ^ 32)
    (hkv : key info v = some k) (hkw : key info w = some k) : v = w := by
  rw [key] at hkv hkw
  by_cases htv : __JS_AtomIsTaggedInt v
  · rw [if_pos htv] at hkv
    by_cases htw : __JS_AtomIsTaggedInt w
    · -- two numbers with the same decimal form
      rw [if_pos htw] at hkw
      have hk := Option.some.inj (hkv.trans hkw.symm)
      have heq := decimal_injective (Key.string.inj hk)
      rw [← fromUInt32_toUInt32 hv htv, heq, fromUInt32_toUInt32 hw htw]
    · -- a number and an entry with its decimal form, of which there is none
      rw [if_neg htw, ← hkv] at hkw
      obtain ⟨x, hx, hk⟩ := Option.map_eq_some_iff.mp hkw
      exact absurd hk (hc.ne_number hx (toUInt32_le v))
  · rw [if_neg htv] at hkv
    obtain ⟨x, hx, rfl⟩ := Option.map_eq_some_iff.mp hkv
    by_cases htw : __JS_AtomIsTaggedInt w
    · rw [if_pos htw] at hkw
      exact absurd (Option.some.inj hkw).symm (hc.ne_number hx (toUInt32_le w))
    · rw [if_neg htw] at hkw
      obtain ⟨y, hy, hk⟩ := Option.map_eq_some_iff.mp hkw
      exact h.key_injective hx hy hk.symm

end Keys

/-! ## Making atoms -/

/-- What a function that makes an atom of a string has done. -/
inductive Named (JS_ATOM_END : ℕ) (info : ℕ → Option Info) (str : StringPtr) (v : ℕ)
    (info' : ℕ → Option Info) : Prop
  /-- It is the text of a number, and there is no entry for it. -/
  | number (n : ℕ) (s : JSString) (hs : str.text info = some s) (hn : n ≤ JS_ATOM_MAX_INT)
      (hu : s.units = widen (decimal n)) (hv : v = __JS_AtomFromUInt32 n)
      (hinfo : ∀ k, k ≠ 0 → info' k = str.drop info k)
  /-- It is not. -/
  | entry (s : JSString) (hs : str.text info = some s)
      (hnum : ∀ n, n ≤ JS_ATOM_MAX_INT → s.units ≠ widen (decimal n)) (hv : v ≠ 0)
      (h : Interned JS_ATOM_END info str .STRING v info')

section Make

variable {rt : JSRuntime} {str : StringPtr} {info info' : ℕ → Option Info} {ty : JSAtomType}
  {i v : ℕ} {s : JSString}

/-- Giving a string up does not look at the other entries. -/
theorem StringPtr.drop_update (info : ℕ → Option Info) (y : Option Info) {k : ℕ} (hk : k ≠ i) :
    str.drop (Function.update info i y) k = str.drop info k := by
  cases str with
  | atom a =>
    rw [StringPtr.drop, StringPtr.drop, unref, unref]
    by_cases hka : k = a
    · subst hka
      rw [Function.update_self, Function.update_self, Function.update_of_ne hk]
    · rw [Function.update_of_ne hka, Function.update_of_ne hka, Function.update_of_ne hk]
  | _ => exact Function.update_of_ne hk ..

theorem StringPtr.drop_of_ne (info : ℕ → Option Info) (h : str ≠ .atom i) :
    str.drop info i = info i := by
  cases str with
  | atom a => exact Function.update_of_ne (fun e => h (congrArg StringPtr.atom e.symm)) ..
  | _ => rfl

variable {JS_ATOM_END : ℕ}

/-- The other entries lose a reference at most. -/
theorem Interned.of_ne (h : Interned JS_ATOM_END info str ty i info') {k : ℕ} (hk : k ≠ 0)
    (hki : k ≠ i) : info' k = str.drop info k := by
  cases h with
  | same x hty hstr hx ht hinfo =>
    have hne : str ≠ .atom k := fun e => hki (StringPtr.atom.inj (e.symm.trans hstr))
    rw [hinfo k hk, Function.update_of_ne hki, StringPtr.drop_of_ne info hne]
  | found x s hty hstr hs hx ht hu hinfo => rw [hinfo k hk, StringPtr.drop_update info _ hki]
  | new x hnone hc ht hs hinfo => rw [hinfo k hk, Function.update_of_ne hki]

/-- The entry of an atom has its type and its text. -/
theorem Interned.entry (h : Interned JS_ATOM_END info str ty i info') (hi : i ≠ 0)
    (hs : str.text info = some s) : ∃ x, info' i = some x ∧
      (x.atom_type = ty ∨ ty = .PRIVATE ∧ x.atom_type = .SYMBOL) ∧ x.str.units = s.units := by
  cases h with
  | same x hty hstr hx ht hinfo =>
    subst hstr
    simp only [StringPtr.text, hx, Option.map_some, Option.some.injEq] at hs
    refine ⟨{ x with ref_count := x.ref_count - if __JS_AtomIsConst JS_ATOM_END i then 1 else 0 },
      ?_, .inl ht, by rw [← hs]⟩
    rw [hinfo i hi, Function.update_self]
  | found x s' hty hstr hs' hx ht hu hinfo =>
    obtain rfl := Option.some.inj (hs.symm.trans hs')
    refine ⟨{ x with ref_count := x.ref_count + if __JS_AtomIsConst JS_ATOM_END i then 0 else 1 },
      ?_, .inl ht, hu⟩
    rw [hinfo i hi, StringPtr.drop_of_ne _ hstr, Function.update_self]
  | new x hnone hc ht hs' hinfo =>
    refine ⟨x, by rw [hinfo i hi, Function.update_self], ?_, by rw [hs', hs]; rfl⟩
    by_cases hp : ty = .PRIVATE
    · rw [if_pos hp] at ht
      exact .inr ⟨hp, ht⟩
    · rw [if_neg hp] at ht
      exact .inl ht

/-- The atom stands for the text. -/
theorem Named.key (h : Named JS_ATOM_END info str v info')
    (hbound : ∀ i, (info' i).isSome → i < 2 ^ 31) (hs : str.text info = some s) :
    Atom.key info' v = some (.string s.units) ∧ v < 2 ^ 32 := by
  cases h with
  | number n s' hs' hn hu hv hinfo =>
    obtain rfl := Option.some.inj (hs.symm.trans hs')
    have hmask : JS_ATOM_MAX_INT = 2 ^ 31 - 1 := rfl
    rw [hv, key_number hn, hu, fromUInt32_eq hn]
    exact ⟨rfl, by omega⟩
  | entry s' hs' hnum hv h =>
    obtain ⟨x, hx, ht, hu⟩ := h.entry hv hs
    have hstr : x.atom_type = .STRING := by
      rcases ht with ht | ⟨ht, -⟩
      · exact ht
      · simp at ht
    have hlt := hbound v (by simp [hx])
    rw [key_entry hlt, hx, Option.map_some, Info.key, hstr]
    exact ⟨by simp only [hu], by omega⟩

theorem WF.lt_two_pow (h : WF rt) (i : ℕ) (hx : (rt.info i).isSome) : i < 2 ^ 31 := by
  obtain ⟨x, hx⟩ := Option.isSome_iff_exists.mp hx
  have hlt := JSRuntime.lt_of_info h hx
  have hmax := h.max
  rw [JS_ATOM_MAX] at hmax
  omega

theorem StringPtr.str_eq (rt : JSRuntime) (p : StringPtr) : p.str rt = p.text rt.info := by
  cases p with
  | atom a =>
    rw [StringPtr.str, StringPtr.text, JSRuntime.info, Option.map_map]
    rfl
  | _ => rfl

theorem StringPtr.exists_text (hv : str.Valid info) (h : str ≠ .null) :
    ∃ s, str.text info = some s := by
  cases str with
  | null => exact absurd rfl h
  | string n s => exact ⟨s, rfl⟩
  | atom a =>
    obtain ⟨x, hx⟩ := Option.isSome_iff_exists.mp hv.2
    exact ⟨x.str, by simp [StringPtr.text, hx]⟩

/-- **`JS_NewAtomStr`.** -/
theorem JS_NewAtomStr_spec (JS_ATOM_END : ℕ) (h : WF rt) (hroom : HasRoom rt)
    (hv : str.Valid rt.info) (hnull : str ≠ .null) :
    ∃ v rt', JS_NewAtomStr JS_ATOM_END rt str = some (v, rt') ∧ WF rt' ∧
      Named JS_ATOM_END rt.info str v rt'.info := by
  obtain ⟨s, hs⟩ := StringPtr.exists_text hv hnull
  cases hn : (is_num_string s).filter (· ≤ JS_ATOM_MAX_INT) with
  | some n =>
    obtain ⟨hnum, hle⟩ := Option.filter_eq_some_iff.mp hn
    obtain ⟨rt', hrun, hs', hinfo⟩ := js_free_string_spec h hv
    refine ⟨_, rt', ?_, hs'.wf, .number n s hs (of_decide_eq_true hle)
      ((is_num_string_iff s n).mp hnum).2 rfl fun k _ => congrFun hinfo k⟩
    simp [JS_NewAtomStr, StringPtr.str_eq, hs, hn, hrun]
  | none =>
    obtain ⟨v, rt', hrun, hne, hwf, hi⟩ :=
      @__JS_NewAtom_spec rt str .STRING JS_ATOM_END h hroom hv fun _ => hnull
    refine ⟨v, rt', ?_, hwf, .entry s hs (fun n hle hu => ?_) hne hi⟩
    · simp [JS_NewAtomStr, StringPtr.str_eq, hs, hn, hrun]
    · have hnum := (is_num_string_iff s n).mpr ⟨lt_of_le_max_int hle, hu⟩
      rw [hnum, Option.filter_eq_none_iff] at hn
      exact absurd (decide_eq_true hle) (hn n rfl)

/-- The narrow strings of the table, as the byte strings they look like. -/
def interned (rt : JSRuntime) : AtomTable :=
  (List.range rt.atom_size).filterMap fun i =>
    match rt.atom i with
    | some { atom_type := .STRING, str := .str8 u, .. } => some u
    | _ => none

theorem mem_interned (h : WF rt) (u : List UInt8) :
    u ∈ interned rt ↔ ∃ i x, rt.info i = some x ∧ x.atom_type = .STRING ∧ x.str = .str8 u := by
  rw [interned, List.mem_filterMap]
  constructor
  · rintro ⟨i, -, hi⟩
    split at hi
    · next rc hash hash_next u' hp =>
      obtain rfl := Option.some.inj hi
      exact ⟨i, _, rt.info_eq hp, rfl, rfl⟩
    · simp at hi
  · rintro ⟨i, x, hx, ht, hs⟩
    obtain ⟨p, hp, rfl⟩ := JSRuntime.exists_atom hx
    have ht' : p.atom_type = .STRING := ht
    have hs' : p.str = .str8 u := hs
    refine ⟨i, List.mem_range.mpr (JSRuntime.lt_of_info h hx), ?_⟩
    obtain ⟨rc, ty, hash, hash_next, str⟩ := p
    simp only at ht' hs'
    rw [hp, ht', hs']

/-- `__JS_FindAtom` finds a narrow entry with these bytes. -/
theorem __JS_FindAtom_spec (JS_ATOM_END : ℕ) (h : WF rt) (u : List UInt8) :
    (u ∉ interned rt ∧ __JS_FindAtom JS_ATOM_END rt u = some (JS_ATOM_NULL, rt)) ∨
      ∃ i rt', u ∈ interned rt ∧ __JS_FindAtom JS_ATOM_END rt u = some (i, rt') ∧ i ≠ 0 ∧ WF rt' ∧
        Interned JS_ATOM_END rt.info (.string 1 (.str8 u)) .STRING i rt'.info := by
  obtain ⟨l, hl, hlen, hmem⟩ := h.chain (atom_hash (.str8 u) .STRING)
  obtain ⟨i, hwalk, hfound, hmissing⟩ := walk_spec (fun _ (p : JSAtomStruct) => decide
    (p.hash = atom_hash (.str8 u) .STRING ∧ p.atom_type = .STRING ∧ p.str = .str8 u)) hl hlen
  by_cases hi : i = 0
  · refine .inl ⟨fun hu => ?_, ?_⟩
    · obtain ⟨j, x, hx, ht, hs⟩ := (mem_interned h u).mp hu
      obtain ⟨p, hp, rfl⟩ := JSRuntime.exists_atom hx
      have ht' : p.atom_type = .STRING := ht
      have hs' : p.str = .str8 u := hs
      have hne : p.atom_type ≠ .SYMBOL := by simp [ht']
      have hhash : p.hash = atom_hash (.str8 u) .STRING := by
        rw [← hs', ← ht']
        exact h.entries.hashed j _ hx hne
      have hj : j ∈ l := by
        rw [hmem, ← hhash]
        exact JSRuntime.inChain hp hne
      exact hmissing hi j hj p hp (decide_eq_true ⟨hhash, ht', hs'⟩)
    · simp only [__JS_FindAtom]
      rw [hwalk]
      simp [hi]
  · obtain ⟨-, p, hp, hd⟩ := hfound hi
    obtain ⟨-, ht, hs⟩ := of_decide_eq_true hd
    have hx := rt.info_eq hp
    have hu : u ∈ interned rt := (mem_interned h u).mpr ⟨i, p.info, hx, ht, hs⟩
    -- a predefined entry is found as well, and not counted
    by_cases hc : __JS_AtomIsConst JS_ATOM_END i
    · refine .inr ⟨i, rt, hu, ?_, hi, h, .found p.info (.str8 u) (.inl rfl) (by simp) rfl hx ht
        (congrArg JSString.units hs) fun k _ => ?_⟩
      · simp only [__JS_FindAtom]
        rw [hwalk]
        simp [hi, hc]
      · rw [if_pos hc, add_zero]
        exact congrFun ((Function.update_eq_self_iff ..).mpr hx.symm).symm k
    · obtain ⟨rt', hrun, hs₁, hinfo⟩ := add_ref_spec h hp 1
      refine .inr ⟨i, rt', hu, ?_, hi, hs₁.wf, .found p.info (.str8 u) (.inl rfl) (by simp) rfl hx ht
        (congrArg JSString.units hs) fun k _ => ?_⟩
      · simp only [__JS_FindAtom]
        rw [hwalk]
        simp [hi, hc, hrun]
      · rw [if_neg hc, hinfo]
        rfl

/-- A decimal form begins with a digit. -/
theorem decimal_head (n : ℕ) : ∃ d < 10, ∃ r, widen (decimal n) = digit d :: r := by
  rcases Nat.eq_zero_or_pos n with rfl | hn
  · exact ⟨0, by omega, [], decimal_of_lt (by omega)⟩
  · obtain ⟨d, ds, hd, hd', hds, rfl⟩ := exists_digits hn
    exact ⟨d, hd', ds.map digit, by rw [decimal_value hd hds, decimal_of_lt hd']; rfl⟩

theorem ne_decimal_of_head {u : List UInt8} (hu : u.head?.any is_digit = false) (n : ℕ) :
    widen u ≠ widen (decimal n) := by
  obtain ⟨d, hd, r, hr⟩ := decimal_head n
  rw [hr]
  intro h
  cases u with
  | nil => simp [widen] at h
  | cons c u =>
    have hc : c.toUInt16 = digit d := (List.cons.inj h).1
    have hnat : c.toNat = 0x30 + d := by
      rw [← digit_toNat hd, ← hc]
      rfl
    simp only [List.head?_cons, Option.any_some, is_digit, Bool.and_eq_false_iff,
      decide_eq_false_iff_not, UInt8.le_iff_toNat_le, UInt8.reduceToNat] at hu
    omega

/-- **`JS_NewAtomLen`** gives the atom of the text that was computed without the table. -/
theorem JS_NewAtomLen_spec (JS_ATOM_END : ℕ) (h : WF rt) (hroom : HasRoom rt) (u : List UInt8) :
    ∃ v rt', JS_NewAtomLen JS_ATOM_END rt u = some (v, rt') ∧ WF rt' ∧
      ((Text.JS_NewAtomLen (interned rt) u = none ∧ v = JS_ATOM_NULL ∧ rt' = rt) ∨
        ∃ s, Text.JS_NewAtomLen (interned rt) u = some s.units ∧
          Named JS_ATOM_END rt.info (.string 1 s) v rt'.info) := by
  -- what is done where the bytes are not looked up first, or not found
  have hslow : ∃ v rt', ofNewString rt (JS_NewAtomStr JS_ATOM_END rt) (JS_NewStringLen u) =
      some (v, rt') ∧ WF rt' ∧ (((JS_NewStringLen u).map JSString.units = none ∧
        v = JS_ATOM_NULL ∧ rt' = rt) ∨ ∃ s, (JS_NewStringLen u).map JSString.units = some s.units ∧
          Named JS_ATOM_END rt.info (.string 1 s) v rt'.info) := by
    cases hs : JS_NewStringLen u with
    | none => exact ⟨JS_ATOM_NULL, rt, rfl, h, .inl ⟨rfl, rfl, rfl⟩⟩
    | some s =>
      obtain ⟨v, rt', hrun, hwf, hn⟩ :=
        @JS_NewAtomStr_spec rt (.string 1 s) JS_ATOM_END h hroom trivial (by simp)
      exact ⟨v, rt', hrun, hwf, .inr ⟨s, rfl, hn⟩⟩
  by_cases hd : u.head?.any is_digit = true
  · obtain ⟨v, rt', hrun, hwf, hcase⟩ := hslow
    refine ⟨v, rt', ?_, hwf, ?_⟩
    · simp [JS_NewAtomLen, hd, hrun]
    · have htext : Text.JS_NewAtomLen (interned rt) u = (JS_NewStringLen u).map JSString.units := by
        simp [Text.JS_NewAtomLen, hd]
      rwa [htext]
  · have hd' : u.head?.any is_digit = false := by simpa using hd
    rcases __JS_FindAtom_spec JS_ATOM_END h u with ⟨hu, hfind⟩ | ⟨i, rt', hu, hfind, hi, hwf, hint⟩
    · obtain ⟨v, rt', hrun, hwf, hcase⟩ := hslow
      refine ⟨v, rt', ?_, hwf, ?_⟩
      · simp [JS_NewAtomLen, hd', hfind, hrun]
      · have htext : Text.JS_NewAtomLen (interned rt) u = (JS_NewStringLen u).map JSString.units := by
          simp [Text.JS_NewAtomLen, hu]
        rwa [htext]
    · refine ⟨i, rt', ?_, hwf, .inr ⟨.str8 u, ?_, .entry (.str8 u) rfl
        (fun n _ => ne_decimal_of_head hd' n) hi hint⟩⟩
      · have hne : i ≠ JS_ATOM_NULL := hi
        simp [JS_NewAtomLen, hd', hfind, hne]
      · simp [Text.JS_NewAtomLen, hd', hu, JSString.units]

theorem mem_decimal {n : ℕ} {c : UInt8} (hc : c ∈ decimal n) : ∃ d < 10, c.toNat = 0x30 + d := by
  obtain ⟨ch, hch, rfl⟩ := List.mem_map.mp hc
  have hdigit := Nat.isDigit_of_mem_toDigits (by omega) (by omega) hch
  rw [Char.isDigit, Bool.and_eq_true, decide_eq_true_eq, decide_eq_true_eq] at hdigit
  have hlo : 0x30 ≤ ch.toNat := UInt32.le_iff_toNat_le.mp hdigit.1
  have hhi : ch.toNat ≤ 0x39 := UInt32.le_iff_toNat_le.mp hdigit.2
  refine ⟨ch.toNat - 0x30, by omega, ?_⟩
  rw [byte_toNat (by omega)]
  omega

/-- A short decimal form is made into a string as it is. -/
theorem JS_NewString_decimal {n k : ℕ} (hn : n < 10 ^ k) (hk : 0 < k) (hmax : k < 64)
    (pre : List UInt8) (hpre : pre = [] ∨ pre = [0x2d]) :
    JS_NewString (pre ++ decimal n) = some (.str8 (pre ++ decimal n)) := by
  have hchar : ∀ c ∈ pre ++ decimal n, c < 128 ∧ c ≠ 0 := by
    intro c hc
    rcases List.mem_append.mp hc with hc | hc
    · rcases hpre with rfl | rfl
      · simp at hc
      · obtain rfl := List.mem_singleton.mp hc
        decide
    · obtain ⟨d, hd, hnat⟩ := mem_decimal hc
      refine ⟨?_, ?_⟩
      · rw [UInt8.lt_iff_toNat_lt, hnat]
        simp only [UInt8.reduceToNat]
        omega
      · rintro rfl
        simp only [UInt8.reduceToNat] at hnat
        omega
  have hlen : (decimal n).length ≤ k := by
    rw [decimal, List.length_map]
    exact (Nat.length_toDigits_le_iff (by omega) hk).mpr hn
  have hpl : pre.length ≤ 1 := by rcases hpre with rfl | rfl <;> simp
  have hc : cString (pre ++ decimal n) = pre ++ decimal n :=
    List.takeWhile_eq_self_iff.mpr fun c hc => by simpa using (hchar c hc).2
  have hascii : (pre ++ decimal n).takeWhile (· < 128) = pre ++ decimal n :=
    List.takeWhile_eq_self_iff.mpr fun c hc => by simpa using (hchar c hc).1
  have hnot : ¬ JS_STRING_LEN_MAX < (pre ++ decimal n).length := by
    rw [JS_STRING_LEN_MAX, List.length_append]
    omega
  rw [JS_NewString, hc, JS_NewStringLen]
  simp only [hascii, if_neg hnot, if_true, js_new_string8]

/-- **`JS_NewAtomUInt32`** gives the atom of the decimal form. -/
theorem JS_NewAtomUInt32_spec (JS_ATOM_END : ℕ) (h : WF rt) (hroom : HasRoom rt) {n : ℕ}
    (hn : n < 2 ^ 32) :
    ∃ v rt', JS_NewAtomUInt32 JS_ATOM_END rt n = some (v, rt') ∧ WF rt' ∧
      Named JS_ATOM_END rt.info (.string 1 (.str8 (decimal n))) v rt'.info := by
  by_cases hle : n ≤ JS_ATOM_MAX_INT
  · exact ⟨_, rt, if_pos hle, h, .number n _ rfl hle rfl rfl fun _ _ => rfl⟩
  · obtain ⟨v, rt', hrun, hv, hwf, hint⟩ := @__JS_NewAtom_spec rt (.string 1 (.str8 (decimal n)))
      .STRING JS_ATOM_END h hroom trivial (by simp)
    refine ⟨v, rt', ?_, hwf, .entry _ rfl (fun m hm hu => ?_) hv hint⟩
    · have hs := JS_NewString_decimal (n := n) (k := 10) (by omega) (by omega) (by omega) [] (.inl rfl)
      rw [List.nil_append] at hs
      rw [JS_NewAtomUInt32, if_neg hle, hs]
      exact hrun
    · exact hle (decimal_injective hu ▸ hm)

/-- **`JS_NewAtomInt64`** gives the atom of the decimal form. -/
theorem JS_NewAtomInt64_spec (JS_ATOM_END : ℕ) (h : WF rt) (hroom : HasRoom rt) {n : ℤ}
    (hlo : -2 ^ 63 ≤ n) (hhi : n < 2 ^ 63) :
    ∃ v rt', JS_NewAtomInt64 JS_ATOM_END rt n = some (v, rt') ∧ WF rt' ∧
      Named JS_ATOM_END rt.info (.string 1 (.str8 (signedDecimal n))) v rt'.info := by
  have hmask : JS_ATOM_MAX_INT = 2 ^ 31 - 1 := rfl
  by_cases hle : n % 2 ^ 64 ≤ JS_ATOM_MAX_INT
  · -- as an unsigned number it is small, so it is not negative
    have hpos : 0 ≤ n ∧ n ≤ JS_ATOM_MAX_INT := by
      rw [hmask] at hle ⊢
      omega
    have hval : (n % 2 ^ 32).toNat = n.toNat := by
      rw [hmask] at hpos
      omega
    have hmax : n.toNat ≤ JS_ATOM_MAX_INT := by omega
    refine ⟨_, rt, if_pos hle, h, .number n.toNat _ rfl hmax ?_ (by rw [hval]) fun _ _ => rfl⟩
    rw [signedDecimal, if_neg (by omega)]
    rfl
  · obtain ⟨v, rt', hrun, hv, hwf, hint⟩ := @__JS_NewAtom_spec rt
      (.string 1 (.str8 (signedDecimal n))) .STRING JS_ATOM_END h hroom trivial (by simp)
    refine ⟨v, rt', ?_, hwf, .entry _ rfl (fun m hm hu => ?_) hv hint⟩
    · have hs : JS_NewString (signedDecimal n) = some (.str8 (signedDecimal n)) := by
        rw [signedDecimal]
        split
        · exact JS_NewString_decimal (k := 19) (by omega) (by omega) (by omega) [0x2d] (.inr rfl)
        · exact JS_NewString_decimal (k := 19) (by omega) (by omega) (by omega) [] (.inl rfl)
      rw [JS_NewAtomInt64, if_neg hle, hs]
      exact hrun
    · by_cases hneg : n < 0
      · rw [signedDecimal, if_pos hneg] at hu
        exact ne_decimal_of_head (u := 0x2d :: decimal n.natAbs) rfl m hu
      · rw [signedDecimal, if_neg hneg] at hu
        have hm' : n.toNat ≤ JS_ATOM_MAX_INT := decimal_injective hu ▸ hm
        rw [hmask] at hm' hle
        omega

/-- **`JS_AtomIsArrayIndex`** is true of the atoms of the numbers below `2 ^ 32 - 1`. -/
theorem JS_AtomIsArrayIndex_spec (h : WF rt) {v : ℕ} (hkey : (key rt.info v).isSome) :
    ∃ r, JS_AtomIsArrayIndex rt v = some r ∧ ∀ n, r = some n ↔
      n < 2 ^ 32 - 1 ∧ key rt.info v = some (.string (widen (decimal n))) := by
  by_cases ht : __JS_AtomIsTaggedInt v
  · refine ⟨_, if_pos ht, fun n => ?_⟩
    have hle := toUInt32_le v
    have hmask : JS_ATOM_MAX_INT = 2 ^ 31 - 1 := rfl
    rw [key, if_pos ht, Option.some.injEq, Option.some.injEq, Key.string.injEq]
    constructor
    · rintro rfl
      exact ⟨by omega, rfl⟩
    · rintro ⟨-, hu⟩
      exact decimal_injective hu
  · rw [key, if_neg ht] at hkey ⊢
    obtain ⟨k, hk⟩ := Option.isSome_iff_exists.mp hkey
    obtain ⟨x, hx, -⟩ := Option.map_eq_some_iff.mp hk
    have hlt := JSRuntime.lt_of_info h hx
    obtain ⟨p, hp, rfl⟩ := JSRuntime.exists_atom hx
    simp only [hx, Option.map_some, Option.some.injEq]
    by_cases hstr : p.atom_type = .STRING
    · refine ⟨(is_num_string p.str).filter (· ≠ 2 ^ 32 - 1), ?_, fun n => ?_⟩
      · simp [JS_AtomIsArrayIndex, ht, hp, hlt, hstr, guard]
      · rw [Option.filter_eq_some_iff, is_num_string_iff, decide_eq_true_eq]
        simp only [Info.key, JSAtomStruct.info, hstr, Key.string.injEq]
        constructor
        · rintro ⟨⟨hlt, hu⟩, hne⟩
          exact ⟨by omega, hu⟩
        · rintro ⟨hlt, hu⟩
          exact ⟨⟨by omega, hu⟩, by omega⟩
    · refine ⟨none, ?_, fun n => ?_⟩
      · simp [JS_AtomIsArrayIndex, ht, hp, hlt, hstr, guard]
      · refine iff_of_false (by simp) ?_
        rintro ⟨-, hn⟩
        have hxt : p.info.atom_type ≠ .STRING := hstr
        rw [Info.key] at hn
        split at hn
        · next hty => exact hxt hty
        · simp at hn
        · simp at hn

end Make

end QuickJSSwift.Atom
