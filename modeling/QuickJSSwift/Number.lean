/-
Integers between Swift and the engine: the `jsValue` encoders and the failable
initialisers of `Int32`, `UInt32`, `Int64`, `Int` and `UInt` (`JSValue.swift`), over
the engine's constructors (`JS_NewInt32`, `JS_NewInt64`, `JS_NewUint32`) and its
modular decoders (`JS_ToInt32Free`, `JS_ToInt64Free`).

The decoders have a fast case, a shifting case and a zero case, chosen by the
exponent field. `JS_ToInt32Float_eq` and `JS_ToInt64Float_eq` say once that all
three together reduce the truncated double modulo the word size, for every finite
bit pattern; nothing later looks at the exponent ranges again.

`ret = -ret` in the C code is read as the wrapping negation the compiled code
performs; the operand is the most negative word for some inputs.
-/
import QuickJSSwift.Lib.Binary64
import QuickJSSwift.Value
import Mathlib.Tactic.Linarith

set_option autoImplicit false

namespace QuickJSSwift.Number

open Binary64

/-! ## Engine constructors -/

/-- `JS_NewInt32`. -/
def JS_NewInt32 (val : Int32) : JSCValue := .int val

/-- `JS_NewInt64`: the int tag when the value survives the narrowing, a double
otherwise. -/
def JS_NewInt64 (val : Int64) : JSCValue :=
  if val = val.toInt32.toInt64 then JS_NewInt32 val.toInt32 else .float64 (ofInt val.toInt)

/-- `JS_NewUint32`. -/
def JS_NewUint32 (val : UInt32) : JSCValue :=
  if val ≤ 0x7fffffff then JS_NewInt32 val.toInt32 else .float64 (ofInt val.toNat)

/-! ## Engine decoders -/

/-- `e = (u.u64 >> 52) & 0x7ff`. -/
def exponentField (d : BitVec 64) : ℕ := ((d >>> 52) &&& 0x7ff#64).toNat

/-- `v = (u.u64 & (((uint64_t)1 << 52) - 1)) | ((uint64_t)1 << 52)`. -/
def significandWord (d : BitVec 64) : BitVec 64 :=
  (d &&& ((1#64 <<< 52) - 1#64)) ||| (1#64 <<< 52)

/-- The `JS_TAG_FLOAT64` case of `JS_ToInt32Free`. -/
def JS_ToInt32Float (d : BitVec 64) : Int32 :=
  let e : ℤ := exponentField d
  if e ≤ 1023 + 30 then
    -- fast case: `(int32_t)d`
    Int32.ofInt (trunc d)
  else if e ≤ 1023 + 30 + 53 then
    -- remainder modulo 2^32
    let v := significandWord d <<< (e - 1023 - 52 + 32).toNat
    let ret := Int32.ofBitVec ((v >>> 32).setWidth 32)
    if d >>> 63 ≠ 0#64 then -ret else ret
  else
    0

/-- The `JS_TAG_FLOAT64` case of `JS_ToInt64Free`. -/
def JS_ToInt64Float (d : BitVec 64) : Int64 :=
  let e : ℤ := exponentField d
  if e ≤ 1023 + 62 then
    -- fast case: `(int64_t)d`
    Int64.ofInt (trunc d)
  else if e ≤ 1023 + 62 + 53 then
    -- remainder modulo 2^64
    let ret := Int64.ofBitVec (significandWord d <<< (e - 1023 - 52).toNat)
    if d >>> 63 ≠ 0#64 then -ret else ret
  else
    0

/-- The cases of `JS_ToInt32Free` that finish without a further conversion. -/
def JS_ToInt32Direct : JSCValue → Option Int32
  | .int v => some v
  | .bool b => some (if b then 1 else 0)
  | .null => some 0
  | .undefined => some 0
  | .float64 d => some (JS_ToInt32Float d)
  | _ => none

/-- The cases of `JS_ToInt64Free` that finish without a further conversion. -/
def JS_ToInt64Direct : JSCValue → Option Int64
  | .int v => some v.toInt64
  | .bool b => some (if b then 1 else 0)
  | .null => some 0
  | .undefined => some 0
  | .float64 d => some (JS_ToInt64Float d)
  | _ => none

section Conversions

/-! `JS_ToNumberFree` may run JavaScript; it is a parameter, `none` standing for a
thrown exception. It returns a number, so one more round of the `redo` loop ends. -/

variable (JS_ToNumberFree : JSCValue → Option JSCValue)

/-- `JS_ToInt32`, with `none` for the return value `-1`. -/
def JS_ToInt32 (val : JSCValue) : Option Int32 :=
  match JS_ToInt32Direct val with
  | some ret => some ret
  | none => (JS_ToNumberFree val).bind JS_ToInt32Direct

/-- `JS_ToUint32` stores through the same pointer, cast. -/
def JS_ToUint32 (val : JSCValue) : Option UInt32 :=
  (JS_ToInt32 JS_ToNumberFree val).map Int32.toUInt32

/-- `JS_ToInt64`. -/
def JS_ToInt64 (val : JSCValue) : Option Int64 :=
  match JS_ToInt64Direct val with
  | some ret => some ret
  | none => (JS_ToNumberFree val).bind JS_ToInt64Direct

/-! ## The Swift conversions -/

/-- `Int32.init?(_:value:)`. -/
def Int32.initValue (value : JSCValue) : Option Int32 :=
  if JS_IsNumber value then JS_ToInt32 JS_ToNumberFree value else none

/-- `UInt32.init?(_:value:)`. -/
def UInt32.initValue (value : JSCValue) : Option UInt32 :=
  if JS_IsNumber value then JS_ToUint32 JS_ToNumberFree value else none

/-- `Int64.init?(_:value:)`. -/
def Int64.initValue (value : JSCValue) : Option Int64 :=
  if JS_IsNumber value then JS_ToInt64 JS_ToNumberFree value else none

/-- `Int.init?(_:value:)`; `Int` is 64 bits wide, so the last conversion keeps the
word. -/
def Int.initValue (value : JSCValue) : Option Int64 := Int64.initValue JS_ToNumberFree value

/-- `UInt.init?(_:value:)`: decoded as a `UInt32` and widened. -/
def UInt.initValue (value : JSCValue) : Option UInt64 :=
  (UInt32.initValue JS_ToNumberFree value).map UInt32.toUInt64

end Conversions

/-- `Int32.jsValue`. -/
def Int32.jsValue (self : Int32) : JSCValue := JS_NewInt32 self

/-- `UInt32.jsValue`. -/
def UInt32.jsValue (self : UInt32) : JSCValue := JS_NewUint32 self

/-- `Int64.jsValue`. -/
def Int64.jsValue (self : Int64) : JSCValue := JS_NewInt64 self

/-- `Int.jsValue`. -/
def Int.jsValue (self : Int64) : JSCValue := Int64.jsValue self

/-- `UInt.jsValue`: `UInt32(self)` traps (`none`) when the value does not fit. -/
def UInt.jsValue (self : UInt64) : Option JSCValue :=
  if self ≤ 0xffffffff then some (UInt32.jsValue self.toUInt32) else none

/-! ## What the word operations read

The three reads of the double's bits, as the fields of `Binary64`. -/

theorem exponentField_eq (d : BitVec 64) : exponentField d = expo d := by
  rw [exponentField, BitVec.toNat_and, BitVec.toNat_ushiftRight, Nat.shiftRight_eq_div_pow]
  exact Nat.and_two_pow_sub_one_eq_mod _ 11

theorem significandWord_toNat (d : BitVec 64) : (significandWord d).toNat = 2 ^ 52 + frac d := by
  have hlow : (d &&& ((1#64 <<< 52) - 1#64)).toNat = frac d := by
    rw [BitVec.toNat_and]
    exact Nat.and_two_pow_sub_one_eq_mod _ 52
  have hlt : frac d < 2 ^ 52 := Nat.mod_lt _ (by norm_num)
  have hor := Nat.two_pow_add_eq_or_of_lt hlt 1
  rw [Nat.mul_one] at hor
  rw [significandWord, BitVec.toNat_or, hlow, hor, Nat.or_comm]
  rfl

theorem signBit_iff (d : BitVec 64) : d >>> 63 ≠ 0#64 ↔ negative d := by
  have hlt := d.isLt
  rw [negative, ne_eq, ← BitVec.toNat_inj, BitVec.toNat_ushiftRight, Nat.shiftRight_eq_div_pow,
    BitVec.toNat_zero]
  omega

/-- The shifted significand of the 32-bit decoder, read from bit 32 up, is the
integer part of the magnitude modulo `2 ^ 32`. -/
theorem shifted32_mod {d : BitVec 64} (hlo : 1053 < expo d) :
    (2 ^ 52 + frac d) * 2 ^ (expo d - 1043) / 2 ^ 32 = truncNat d := by
  rw [truncNat]
  split_ifs with h
  · rw [show expo d - 1043 = expo d - 1075 + 32 by omega, pow_add, ← mul_assoc]
    exact Nat.mul_div_cancel _ (by norm_num)
  · have hsplit : (2 : ℕ) ^ 32 = 2 ^ (1075 - expo d) * 2 ^ (expo d - 1043) := by
      rw [← pow_add, show 1075 - expo d + (expo d - 1043) = 32 by omega]
    rw [hsplit]
    exact Nat.mul_div_mul_right _ _ (Nat.two_pow_pos _)

/-- A power of two at least `2 ^ w` vanishes modulo `2 ^ w`. -/
theorem ofNat_mul_two_pow {w k : ℕ} (m : ℕ) (h : w ≤ k) : BitVec.ofNat w (m * 2 ^ k) = 0#w := by
  rw [← BitVec.toNat_inj, BitVec.toNat_ofNat, BitVec.toNat_zero]
  obtain ⟨j, rfl⟩ := Nat.exists_eq_add_of_le h
  rw [pow_add, mul_left_comm]
  exact Nat.mul_mod_right _ _

/-- Reducing a truncated double is reducing its magnitude and restoring the sign. -/
theorem ofInt_trunc (w : ℕ) (d : BitVec 64) :
    BitVec.ofInt w (trunc d)
      = if d >>> 63 ≠ 0#64 then -BitVec.ofNat w (truncNat d) else BitVec.ofNat w (truncNat d) := by
  rw [trunc]
  by_cases h : negative d
  · rw [if_pos h, if_pos ((signBit_iff d).mpr h), BitVec.ofInt_neg, BitVec.ofInt_natCast]
  · rw [if_neg h, if_neg (fun hc => h ((signBit_iff d).mp hc)), BitVec.ofInt_natCast]

/-- The magnitude the 32-bit shifting case computes. -/
theorem shifted32_word {d : BitVec 64} (hlo : 1053 < expo d) :
    ((significandWord d <<< (expo d - 1043)) >>> 32).setWidth 32
      = BitVec.ofNat 32 (truncNat d) := by
  rw [← BitVec.toNat_inj, BitVec.toNat_setWidth, BitVec.toNat_ushiftRight, BitVec.toNat_shiftLeft,
    significandWord_toNat, BitVec.toNat_ofNat, Nat.shiftLeft_eq, Nat.shiftRight_eq_div_pow,
    ← shifted32_mod hlo]
  omega

/-- The magnitude the 64-bit shifting case computes. -/
theorem shifted64_word {d : BitVec 64} (hlo : 1085 < expo d) :
    significandWord d <<< (expo d - 1075) = BitVec.ofNat 64 (truncNat d) := by
  rw [← BitVec.toNat_inj, BitVec.toNat_shiftLeft, significandWord_toNat, BitVec.toNat_ofNat,
    Nat.shiftLeft_eq, truncNat, if_pos (by omega)]

/-- Beyond the shifting case the magnitude is a multiple of the word size. -/
theorem truncNat_large {w : ℕ} {d : BitVec 64} (h : w + 1075 ≤ expo d) :
    BitVec.ofNat w (truncNat d) = 0#w := by
  rw [truncNat, if_pos (by omega)]
  exact ofNat_mul_two_pow _ (by omega)

/-- **`JS_ToInt32Free` on a double** is truncation modulo `2 ^ 32`. -/
theorem JS_ToInt32Float_eq (d : BitVec 64) : JS_ToInt32Float d = Int32.ofInt (trunc d) := by
  rw [JS_ToInt32Float, exponentField_eq]
  dsimp only
  by_cases hfast : (expo d : ℤ) ≤ 1023 + 30
  · rw [if_pos hfast]
  rw [if_neg hfast, ← Int32.toBitVec_inj, Int32.toBitVec_ofInt, ofInt_trunc]
  by_cases hmid : (expo d : ℤ) ≤ 1023 + 30 + 53
  · rw [if_pos hmid, show ((expo d : ℤ) - 1023 - 52 + 32).toNat = expo d - 1043 by omega,
      shifted32_word (by omega)]
    split_ifs
    · exact Int32.toBitVec_neg _
    · rfl
  · rw [if_neg hmid, truncNat_large (by omega)]
    split_ifs <;> rfl

/-- **`JS_ToInt64Free` on a double** is truncation modulo `2 ^ 64`. -/
theorem JS_ToInt64Float_eq (d : BitVec 64) : JS_ToInt64Float d = Int64.ofInt (trunc d) := by
  rw [JS_ToInt64Float, exponentField_eq]
  dsimp only
  by_cases hfast : (expo d : ℤ) ≤ 1023 + 62
  · rw [if_pos hfast]
  rw [if_neg hfast, ← Int64.toBitVec_inj, Int64.toBitVec_ofInt, ofInt_trunc]
  by_cases hmid : (expo d : ℤ) ≤ 1023 + 62 + 53
  · rw [if_pos hmid, show ((expo d : ℤ) - 1023 - 52).toNat = expo d - 1075 by omega,
      shifted64_word (by omega)]
    split_ifs
    · exact Int64.toBitVec_neg _
    · rfl
  · rw [if_neg hmid, truncNat_large (by omega)]
    split_ifs <;> rfl

/-! ## The five types together -/

/-- The integer types that conform to `ConvertibleWithJavascript`. -/
inductive IntType
  | int32
  | uint32
  | int64
  | int
  | uint
  deriving DecidableEq, Repr

namespace IntType

/-- The machine words of a type. -/
@[reducible] def Carrier : IntType → Type
  | int32 => Int32
  | uint32 => UInt32
  | int64 => Int64
  | int => Int64
  | uint => UInt64

/-- The integer a word denotes. -/
def toInt : (A : IntType) → A.Carrier → ℤ
  | int32, n => Int32.toInt n
  | uint32, n => UInt32.toNat n
  | int64, n => Int64.toInt n
  | int, n => Int64.toInt n
  | uint, n => UInt64.toNat n

/-- `n.jsValue(context).cValue`; `none` is a trap. -/
def jsValue : (A : IntType) → A.Carrier → Option JSCValue
  | int32, n => some (Int32.jsValue n)
  | uint32, n => some (UInt32.jsValue n)
  | int64, n => some (Int64.jsValue n)
  | int, n => some (Int.jsValue n)
  | uint, n => UInt.jsValue n

/-- `B(context, value: v)`; `none` is `nil`. -/
def initValue (JS_ToNumberFree : JSCValue → Option JSCValue) :
    (B : IntType) → JSCValue → Option B.Carrier
  | int32, v => Int32.initValue JS_ToNumberFree v
  | uint32, v => UInt32.initValue JS_ToNumberFree v
  | int64, v => Int64.initValue JS_ToNumberFree v
  | int, v => Int.initValue JS_ToNumberFree v
  | uint, v => UInt.initValue JS_ToNumberFree v

/-- Two's-complement reduction into the range a type decodes to: `UInt` is decoded
through `UInt32`. -/
def wrap : IntType → ℤ → ℤ
  | int32, r => r.bmod (2 ^ 32)
  | uint32, r => r % 2 ^ 32
  | int64, r => r.bmod (2 ^ 64)
  | int, r => r.bmod (2 ^ 64)
  | uint, r => r % 2 ^ 32

/-- The types whose values are stored without loss: the 32-bit types, and `UInt`,
which is narrowed to 32 bits first. -/
def storesExactly : IntType → Bool
  | int32 => true
  | uint32 => true
  | uint => true
  | int64 => false
  | int => false

/-- The number the engine holds for `n`: `n` itself for a type that is stored
exactly and for anything in the range of `Int32`, otherwise `n` rounded to
fifty-three significant bits, ties to even. -/
def Stores (A : IntType) (n r : ℤ) : Prop :=
  if A.storesExactly ∨ (-2 ^ 31 ≤ n ∧ n < 2 ^ 31) then r = n else RoundsTo 53 n r

theorem toInt_injective (A : IntType) {m n : A.Carrier} (h : A.toInt m = A.toInt n) : m = n := by
  cases A with
  | int32 => exact Int32.toInt_inj.mp h
  | uint32 => exact UInt32.toNat_inj.mp (Int.ofNat.inj h)
  | int64 => exact Int64.toInt_inj.mp h
  | int => exact Int64.toInt_inj.mp h
  | uint => exact UInt64.toNat_inj.mp (Int.ofNat.inj h)

end IntType

/-- The number a value holds, under either representation. -/
def numValue : JSCValue → Option ℤ
  | .int i => some i.toInt
  | .float64 d => some (trunc d)
  | _ => none

/-! ### Encoding -/

theorem hasSigBits_of_abs_le {n : ℤ} (hlo : -2 ^ 32 ≤ n) (hhi : n ≤ 2 ^ 32) : HasSigBits 53 n :=
  HasSigBits.of_natAbs_le (by norm_num) (by omega)

/-- An integer that was stored as a double reads back rounded. -/
theorem numValue_float64_ofInt {n : ℤ} (hlo : -2 ^ 63 ≤ n) (hhi : n < 2 ^ 64) :
    numValue (.float64 (ofInt n)) = some (roundInt 53 n) := by
  have hsize : n.natAbs.size ≤ 64 := Nat.size_le.mpr (by omega)
  rw [numValue, trunc_ofInt (by omega)]

theorem numValue_JS_NewInt64 (n : Int64) :
    numValue (JS_NewInt64 n) = some (roundInt 53 n.toInt) := by
  have hlo := n.le_toInt
  have hhi := n.toInt_lt
  rw [JS_NewInt64]
  split_ifs with h
  · -- The narrowing kept the value, so it is in the range of `Int32`.
    have hval : n.toInt = n.toInt32.toInt := by
      conv_lhs => rw [h]
      exact Int32.toInt_toInt64 _
    have hlo' := n.toInt32.le_toInt
    have hhi' := n.toInt32.toInt_lt
    rw [JS_NewInt32, numValue, (roundInt_eq_self_iff (by norm_num) _).mpr
      (hasSigBits_of_abs_le (by omega) (by omega)), hval]
  · exact numValue_float64_ofInt (by omega) (by omega)

theorem numValue_JS_NewUint32 (n : UInt32) :
    numValue (JS_NewUint32 n) = some (roundInt 53 (n.toNat : ℤ)) := by
  have hlt := n.toNat_lt
  rw [JS_NewUint32]
  split_ifs with h
  · have hle : n.toNat ≤ 0x7fffffff := UInt32.le_iff_toNat_le.mp h
    rw [JS_NewInt32, numValue, (roundInt_eq_self_iff (by norm_num) _).mpr
      (hasSigBits_of_abs_le (by omega) (by omega))]
    congr 1
    rw [Int32.toInt, UInt32.toBitVec_toInt32, BitVec.toInt_eq_toNat_of_lt]
    · rfl
    · rw [UInt32.toNat_toBitVec]
      omega
  · exact numValue_float64_ofInt (by omega) (by omega)

theorem numValue_JS_NewInt32 (n : Int32) :
    numValue (JS_NewInt32 n) = some (roundInt 53 n.toInt) := by
  have hlo := n.le_toInt
  have hhi := n.toInt_lt
  rw [(roundInt_eq_self_iff (by norm_num) _).mpr (hasSigBits_of_abs_le (by omega) (by omega))]
  rfl

/-- `UInt.jsValue` does not trap below `2 ^ 32`, and stores the value exactly. -/
theorem numValue_UInt_jsValue {n : UInt64} (hn : (n.toNat : ℤ) ≤ 2 ^ 32 - 1) :
    ∃ v, UInt.jsValue n = some v ∧ numValue v = some (roundInt 53 (n.toNat : ℤ)) := by
  have hcond : n ≤ 0xffffffff := UInt64.le_iff_toNat_le.mpr (by
    show n.toNat ≤ 4294967295
    omega)
  refine ⟨UInt32.jsValue n.toUInt32, if_pos hcond, ?_⟩
  rw [UInt32.jsValue, numValue_JS_NewUint32, UInt64.toNat_toUInt32, Nat.mod_eq_of_lt (by omega)]

/-- Every encoder stores the rounded number, if it does not trap. -/
theorem IntType.jsValue_numValue (A : IntType) (n : A.Carrier)
    (hn : A = .uint → A.toInt n ≤ 2 ^ 32 - 1) :
    ∃ v, A.jsValue n = some v ∧ numValue v = some (roundInt 53 (A.toInt n)) := by
  cases A with
  | int32 => exact ⟨_, rfl, numValue_JS_NewInt32 n⟩
  | uint32 => exact ⟨_, rfl, numValue_JS_NewUint32 n⟩
  | int64 => exact ⟨_, rfl, numValue_JS_NewInt64 n⟩
  | int => exact ⟨_, rfl, numValue_JS_NewInt64 n⟩
  | uint => exact numValue_UInt_jsValue (hn rfl)

/-- A type's rounding rule, stated once for all types. -/
theorem IntType.stores_roundInt (A : IntType) (n : A.Carrier)
    (hn : A = .uint → A.toInt n ≤ 2 ^ 32 - 1) : A.Stores (A.toInt n) (roundInt 53 (A.toInt n)) := by
  rw [IntType.Stores]
  split_ifs with h
  · refine (roundInt_eq_self_iff (by norm_num) _).mpr ?_
    have hrange : -2 ^ 32 ≤ A.toInt n ∧ A.toInt n ≤ 2 ^ 32 := by
      rcases h with hexact | hsmall
      · cases A with
        | int32 =>
          have hlo := Int32.le_toInt n
          have hhi := Int32.toInt_lt n
          simp only [IntType.toInt]
          omega
        | uint32 =>
          have hlt := UInt32.toNat_lt n
          simp only [IntType.toInt]
          omega
        | uint =>
          have hle := hn rfl
          simp only [IntType.toInt] at hle ⊢
          omega
        | int64 => exact absurd hexact (by decide)
        | int => exact absurd hexact (by decide)
      · omega
    exact hasSigBits_of_abs_le hrange.1 hrange.2
  · exact roundInt_roundsTo (by norm_num) _

/-! ### Decoding -/

section Decoding

variable (JS_ToNumberFree : JSCValue → Option JSCValue)

/-- On a number, `JS_ToInt32` reduces what the value holds. -/
theorem JS_ToInt32_numValue {v : JSCValue} {r : ℤ} (hv : numValue v = some r) :
    JS_ToInt32 JS_ToNumberFree v = some (Int32.ofInt r) := by
  cases v with
  | int i =>
    obtain rfl : i.toInt = r := by simpa [numValue] using hv
    rw [Int32.ofInt_toInt]
    rfl
  | float64 d =>
    obtain rfl : trunc d = r := by simpa [numValue] using hv
    rw [← JS_ToInt32Float_eq]
    rfl
  | _ => simp [numValue] at hv

/-- On a number, `JS_ToInt64` reduces what the value holds. -/
theorem JS_ToInt64_numValue {v : JSCValue} {r : ℤ} (hv : numValue v = some r) :
    JS_ToInt64 JS_ToNumberFree v = some (Int64.ofInt r) := by
  cases v with
  | int i =>
    obtain rfl : i.toInt = r := by simpa [numValue] using hv
    rw [← Int32.toInt_toInt64, Int64.ofInt_toInt]
    rfl
  | float64 d =>
    obtain rfl : trunc d = r := by simpa [numValue] using hv
    rw [← JS_ToInt64Float_eq]
    rfl
  | _ => simp [numValue] at hv

theorem isNumber_of_numValue {v : JSCValue} {r : ℤ} (hv : numValue v = some r) :
    JS_IsNumber v = true := by
  cases v with
  | int i => rfl
  | float64 d => rfl
  | _ => simp [numValue] at hv

theorem toNat_ofInt_toUInt32 (r : ℤ) : ((Int32.ofInt r).toUInt32.toNat : ℤ) = r % 2 ^ 32 := by
  rw [← UInt32.toNat_toBitVec, Int32.toBitVec_toUInt32, Int32.toBitVec_ofInt, BitVec.toNat_ofInt]
  omega

/-- Every decoder accepts a number and reduces it into its range. -/
theorem IntType.initValue_numValue (B : IntType) {v : JSCValue} {r : ℤ}
    (hv : numValue v = some r) :
    ∃ b, B.initValue JS_ToNumberFree v = some b ∧ B.toInt b = B.wrap r := by
  have hnum := isNumber_of_numValue hv
  have h32 := JS_ToInt32_numValue JS_ToNumberFree hv
  have h64 := JS_ToInt64_numValue JS_ToNumberFree hv
  have hu32 : UInt32.initValue JS_ToNumberFree v = some (Int32.ofInt r).toUInt32 := by
    rw [UInt32.initValue, if_pos hnum, JS_ToUint32, h32]
    rfl
  have hi64 : Int64.initValue JS_ToNumberFree v = some (Int64.ofInt r) := by
    rw [Int64.initValue, if_pos hnum, h64]
  cases B with
  | int32 =>
    refine ⟨Int32.ofInt r, ?_, Int32.toInt_ofInt⟩
    exact (if_pos hnum).trans h32
  | uint32 => exact ⟨_, hu32, toNat_ofInt_toUInt32 r⟩
  | int64 => exact ⟨_, hi64, Int64.toInt_ofInt⟩
  | int => exact ⟨_, hi64, Int64.toInt_ofInt⟩
  | uint =>
    refine ⟨(Int32.ofInt r).toUInt32.toUInt64, congrArg (Option.map UInt32.toUInt64) hu32, ?_⟩
    exact (congrArg Int.ofNat (UInt32.toNat_toUInt64 _)).trans (toNat_ofInt_toUInt32 r)

/-! ### Both ways -/

/-- Encode and decode at one type. -/
def IntType.roundTrip (A : IntType) (n : A.Carrier) : Option A.Carrier :=
  (A.jsValue n).bind (A.initValue JS_ToNumberFree)

/-- The round trip reduces the rounded number. -/
theorem IntType.roundTrip_spec (A : IntType) (n : A.Carrier)
    (hn : A = .uint → A.toInt n ≤ 2 ^ 32 - 1) :
    ∃ b, A.roundTrip JS_ToNumberFree n = some b ∧ A.toInt b = A.wrap (roundInt 53 (A.toInt n)) := by
  obtain ⟨v, henc, hnum⟩ := A.jsValue_numValue n hn
  obtain ⟨b, hdec, hval⟩ := A.initValue_numValue JS_ToNumberFree hnum
  exact ⟨b, by rw [IntType.roundTrip, henc, Option.bind_some, hdec], hval⟩

/-- The round trip keeps a word exactly when the reduction keeps its number. -/
theorem IntType.roundTrip_eq_self_iff (A : IntType) (n : A.Carrier)
    (hn : A = .uint → A.toInt n ≤ 2 ^ 32 - 1) :
    A.roundTrip JS_ToNumberFree n = some n ↔ A.wrap (roundInt 53 (A.toInt n)) = A.toInt n := by
  obtain ⟨b, hb, hval⟩ := A.roundTrip_spec JS_ToNumberFree n hn
  rw [hb, Option.some_inj, ← hval]
  exact ⟨fun h => by rw [h], fun h => A.toInt_injective h⟩

/-- At 64 bits a rounded number wraps only at `2 ^ 63`. -/
theorem bmod_roundInt_eq_self_iff {n : ℤ} (hlo : -2 ^ 63 ≤ n) (hhi : n < 2 ^ 63) :
    (roundInt 53 n).bmod (2 ^ 64) = n ↔ HasSigBits 53 n := by
  have hb := roundInt_bounds (p := 53) (k := 63) (by norm_num) hlo hhi.le
  have hpow : HasSigBits 53 (-2 ^ 63) := (HasSigBits.two_pow (by norm_num) 63).neg
  constructor
  · intro h
    rcases eq_or_lt_of_le hb.2 with htop | hlt
    · -- Only the most negative number could be met by the wrap, and it does not round.
      rw [htop] at h
      have hn : n = -2 ^ 63 := by rw [← h]; decide
      rwa [hn]
    · rw [Int.bmod_eq_of_le (by omega) (by omega)] at h
      exact (roundInt_eq_self_iff (by norm_num) n).mp h
  · intro h
    rw [(roundInt_eq_self_iff (by norm_num) n).mpr h]
    exact Int.bmod_eq_of_le (by omega) (by omega)

end Decoding

/-- **Integers across the bridge.** For every pair of types the decoder accepts
what the encoder made and returns the stored number reduced into its own range;
the same-type round trips are the identity on the 32-bit words, and on the 64-bit
words exactly where fifty-three significant bits suffice. -/
theorem int_encode_decode (JS_ToNumberFree : JSCValue → Option JSCValue) :
    (∀ (A B : IntType) (n : A.Carrier), (A = .uint → A.toInt n ≤ 2 ^ 32 - 1) →
      ∃ r v b, A.Stores (A.toInt n) r ∧ A.jsValue n = some v ∧
        B.initValue JS_ToNumberFree v = some b ∧ B.toInt b = B.wrap r) ∧
    (∀ n : Int32, IntType.int32.roundTrip JS_ToNumberFree n = some n) ∧
    (∀ n : UInt32, IntType.uint32.roundTrip JS_ToNumberFree n = some n) ∧
    (∀ n : UInt64, n.toNat ≤ 2 ^ 32 - 1 → IntType.uint.roundTrip JS_ToNumberFree n = some n) ∧
    (∀ n : Int64, IntType.int64.roundTrip JS_ToNumberFree n = some n ↔ HasSigBits 53 n.toInt) ∧
    (∀ n : Int64, IntType.int.roundTrip JS_ToNumberFree n = some n ↔ HasSigBits 53 n.toInt) ∧
    (∀ n : Int64, |n.toInt| ≤ 2 ^ 53 → HasSigBits 53 n.toInt) ∧
    (∀ n : Int64, RoundsTo 53 n.toInt (2 ^ 63) →
      IntType.int64.roundTrip JS_ToNumberFree n = some Int64.minValue ∧
      IntType.int.roundTrip JS_ToNumberFree n = some Int64.minValue) := by
  have hsmall : ∀ n : ℤ, -2 ^ 31 ≤ n → n < 2 ^ 32 → roundInt 53 n = n := fun n hlo hhi =>
    (roundInt_eq_self_iff (by norm_num) n).mpr (hasSigBits_of_abs_le (by omega) (by omega))
  refine ⟨?_, ?_, ?_, ?_, ?_, ?_, ?_, ?_⟩
  · intro A B n hn
    obtain ⟨v, henc, hnum⟩ := A.jsValue_numValue n hn
    obtain ⟨b, hdec, hval⟩ := B.initValue_numValue JS_ToNumberFree hnum
    exact ⟨_, v, b, A.stores_roundInt n hn, henc, hdec, hval⟩
  · intro n
    have hlo := n.le_toInt
    have hhi := n.toInt_lt
    refine (IntType.int32.roundTrip_eq_self_iff JS_ToNumberFree n (by simp)).mpr ?_
    show (roundInt 53 n.toInt).bmod (2 ^ 32) = n.toInt
    rw [hsmall _ (by omega) (by omega)]
    exact Int.bmod_eq_of_le (by omega) (by omega)
  · intro n
    have hlt := n.toNat_lt
    refine (IntType.uint32.roundTrip_eq_self_iff JS_ToNumberFree n (by simp)).mpr ?_
    show roundInt 53 (n.toNat : ℤ) % 2 ^ 32 = n.toNat
    rw [hsmall _ (by omega) (by omega)]
    omega
  · intro n hn
    refine (IntType.uint.roundTrip_eq_self_iff JS_ToNumberFree n ?_).mpr ?_
    · intro _
      show (n.toNat : ℤ) ≤ 2 ^ 32 - 1
      omega
    · show roundInt 53 (n.toNat : ℤ) % 2 ^ 32 = n.toNat
      rw [hsmall _ (by omega) (by omega)]
      omega
  · intro n
    rw [IntType.int64.roundTrip_eq_self_iff JS_ToNumberFree n (by simp)]
    exact bmod_roundInt_eq_self_iff n.le_toInt n.toInt_lt
  · intro n
    rw [IntType.int.roundTrip_eq_self_iff JS_ToNumberFree n (by simp)]
    exact bmod_roundInt_eq_self_iff n.le_toInt n.toInt_lt
  · intro n hn
    have hrange := abs_le.mp hn
    exact HasSigBits.of_natAbs_le (by norm_num) (by omega)
  · intro n hn
    have hr := hn.eq_roundInt (by norm_num)
    have hwrap : (roundInt 53 n.toInt).bmod (2 ^ 64) = Int64.minValue.toInt := by
      rw [← hr]
      decide
    constructor
    · obtain ⟨b, hb, hval⟩ := IntType.int64.roundTrip_spec JS_ToNumberFree n (by simp)
      rw [hb, Int64.toInt_inj.mp (hval.trans hwrap)]
    · obtain ⟨b, hb, hval⟩ := IntType.int.roundTrip_spec JS_ToNumberFree n (by simp)
      rw [hb, Int64.toInt_inj.mp (hval.trans hwrap)]

end QuickJSSwift.Number
