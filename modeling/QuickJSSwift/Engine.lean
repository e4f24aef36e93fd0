/-
Calls of the engine that can run JavaScript: what comes back, what becomes of the pending
exception, and which references change hands (`quickjs.c`).

A property read can call a getter, a conversion can call `toString`, `valueOf` or
`Symbol.toPrimitive`. What such code does is a parameter, an `Engine` over any type `ω` of
JS worlds: a call takes a world to a world and answers with a value, or throws. A value
can come with `current_exception` emptied, when the code has caught an exception of its
own on the way. The rest is translated: the one exception slot of the runtime
(`JS_Throw`, `JS_GetException`), the reference that comes with a returned value, and the
conversion of a value to an index (`JS_ToIndex`), down to the reading of numbers in
strings (`js_atof`).

`CONFIG_BIGNUM` is not defined in this package, so the tags of big numbers fall under the
default cases.
-/
import QuickJSSwift.Ownership
import QuickJSSwift.Text

set_option autoImplicit false

namespace QuickJSSwift

open Ownership (oneAt one JS_NewFloat64)

/-! ## Numbers in strings -/

/-- `lre_is_space`, the ranges of `char_range_s`. -/
def lre_is_space (c : ℕ) : Bool :=
  (0x0009 ≤ c && c ≤ 0x000d) || c == 0x0020 || c == 0x00a0 || c == 0x1680 ||
    (0x2000 ≤ c && c ≤ 0x200a) || (0x2028 ≤ c && c ≤ 0x2029) || c == 0x202f || c == 0x205f ||
    c == 0x3000 || c == 0xfeff

/-- One turn of `skip_spaces`: what follows the space. -/
def skipSpace (p : List UInt8) : Option (List UInt8) :=
  match p with
  | [] => none
  | c :: rest =>
    if c < 128 then if (0x09 ≤ c && c ≤ 0x0d) || c == 0x20 then some rest else none
    else
      match Text.unicode_from_utf8 p 6 with
      | some (c, p_next) => if lre_is_space c then some p_next else none
      | none => none

/-- `skip_spaces`: what is left. A string of `n` bytes has at most `n` spaces. -/
def skip_spaces (p : List UInt8) : List UInt8 := go p.length p
where
  go : ℕ → List UInt8 → List UInt8
    | 0, p => p
    | n + 1, p =>
      match skipSpace p with
      | some rest => go n rest
      | none => p

/-- `to_digit`. -/
def to_digit (c : UInt8) : ℕ :=
  if 0x30 ≤ c && c ≤ 0x39 then c.toNat - 0x30
  else if 0x41 ≤ c && c ≤ 0x5a then c.toNat - 0x41 + 10
  else if 0x61 ≤ c && c ≤ 0x7a then c.toNat - 0x61 + 10
  else 36

/-- The byte at the head; `'\0'` behind the end. -/
def headByte (p : List UInt8) : UInt8 := p.headD 0

/-- The digits at the head are skipped. -/
def skipDigits (radix : ℕ) (p : List UInt8) : List UInt8 := p.dropWhile (fun c => to_digit c < radix)

/-- The fraction of a number, if there is one: what is left, and whether there was. -/
def skipFraction (radix : ℕ) (p : List UInt8) (digits : Bool) : List UInt8 × Bool :=
  if headByte p == 0x2e && (digits || to_digit (headByte p.tail) < radix) then
    (skipDigits radix p.tail, true)
  else (p, false)

/-- The exponent of a number, if there is one. -/
def skipExponent (radix : ℕ) (p : List UInt8) (digits : Bool) : List UInt8 × Bool :=
  if digits &&
      (((headByte p == 0x65 || headByte p == 0x45) && radix == 10) ||
        ((headByte p == 0x70 || headByte p == 0x50) && (radix == 2 || radix == 8 || radix == 16))) then
    let p1 := p.tail
    let p1 := if headByte p1 == 0x2b || headByte p1 == 0x2d then p1.tail else p1
    -- without a digit the letter stays
    if Text.is_digit (headByte p1) then (p1.tail.dropWhile Text.is_digit, true) else (p, true)
  else (p, false)

/-- The bytes of `Infinity`. -/
def infinityText : List UInt8 := [0x49, 0x6e, 0x66, 0x69, 0x6e, 0x69, 0x74, 0x79]

/-- A quiet NaN, and the infinities. -/
def JS_NAN : JSCValue := .float64 0x7ff8000000000000#64

def infinity (is_neg : Bool) : JSCValue :=
  .float64 (if is_neg then 0xfff0000000000000#64 else 0x7ff0000000000000#64)

section Atof

variable (js_strtod : List UInt8 → ℕ → Bool → BitVec 64)

/-- The digits of a number in `radix`, from `p_start`: its value, and what is left. -/
def atofDigits (radix : ℕ) (is_neg : Bool) (p_start : List UInt8) : JSCValue × List UInt8 :=
  let p := skipDigits radix p_start
  -- `p > p_start`: there is a digit before the point
  let (p, is_float) := skipFraction radix p (p.length < p_start.length)
  let (p, is_float') := skipExponent radix p (p.length < p_start.length)
  let is_float := is_float || is_float'
  if p.length = p_start.length then (JS_NAN, p)
  -- `0x1.8` is no number
  else if is_float && radix != 10 then (JS_NAN, p)
  else
    let buf := p_start.take (p_start.length - p.length)
    (JS_NewFloat64 (js_strtod (if is_neg then 0x2d :: buf else buf) radix is_float), p)

/-- `no_radix_prefix`: a decimal number or `Infinity`. -/
def atofDecimal (is_neg : Bool) (p : List UInt8) : JSCValue × List UInt8 :=
  if infinityText.isPrefixOf p then (infinity is_neg, p.drop infinityText.length)
  else atofDigits js_strtod 10 is_neg p

/-- The number in the radix that a prefix names: there must be a digit after it. -/
def atofPrefixed (radix : ℕ) (p : List UInt8) : JSCValue × List UInt8 :=
  if radix ≤ to_digit (headByte p) then (JS_NAN, p) else atofDigits js_strtod radix false p

/-- `js_atof(ctx, p, &p, 0, ATOD_ACCEPT_BIN_OCT)`: the value, and what is left. -/
def js_atof (p : List UInt8) : JSCValue × List UInt8 :=
  if headByte p == 0x2b then atofDecimal js_strtod false p.tail
  else if headByte p == 0x2d then atofDecimal js_strtod true p.tail
  else if headByte p == 0x30 then
    let c := headByte p.tail
    if c == 0x78 || c == 0x58 then atofPrefixed js_strtod 16 (p.drop 2)
    else if c == 0x6f || c == 0x4f then atofPrefixed js_strtod 8 (p.drop 2)
    else if c == 0x62 || c == 0x42 then atofPrefixed js_strtod 2 (p.drop 2)
    else atofDigits js_strtod 10 false p
  else atofDecimal js_strtod false p

/-- The `JS_TAG_STRING` case of `JS_ToNumberHintFree`. -/
def numberOfText (str : List UInt8) : JSCValue :=
  let p := skip_spaces str
  if p = [] then .int 0
  else
    let (ret, p) := js_atof js_strtod p
    -- anything but spaces after the number
    if skip_spaces p = [] then ret else JS_NAN

end Atof

/-! ## Engines and runtimes -/

/-- A C string of `JS_ToCString`: its bytes, and the string value that holds them. -/
structure CString where
  cell : Ptr
  bytes : List UInt8

/-- How a call ends: with a value, and whether code on the way has caught an exception;
with an exception that it throws; or with `JS_EXCEPTION` and nothing thrown. -/
inductive Reply (α : Type)
  | value (a : α) (caught : Bool)
  | throws (x : JSCValue)
  | fails

/-- The kinds of errors that are thrown here. -/
inductive JSErrorEnum
  | JS_RANGE_ERROR
  | JS_SYNTAX_ERROR
  | JS_TYPE_ERROR
  deriving DecidableEq, Repr

/-- What JS code, the allocator and the C library do. -/
structure Engine (ω : Type) where
  JS_ToCString : ω → JSCValue → ω × Reply CString
  JS_ToPrimitive : ω → JSCValue → ω × Reply JSCValue
  JS_GetPropertyStr : ω → JSCValue → String → ω × Reply JSCValue
  JS_GetPropertyUint32 : ω → JSCValue → UInt32 → ω × Reply JSCValue
  JS_IsError : ω → JSCValue → Bool
  /-- The error object that `JS_ThrowError` makes. -/
  errorObject : ω → JSErrorEnum → String → ω × JSCValue
  /-- The string of an atom. -/
  JS_AtomToString : List UInt8 → Ptr
  js_strtod : List UInt8 → ℕ → Bool → BitVec 64

/-- What is recorded: that something was thrown, that the slot was emptied. -/
inductive Event
  | threw (x : JSCValue)
  | cleared
  deriving DecidableEq, Repr

/-- A runtime: the world of its JS code, the exception slot, the reference counts, and a
record of what happened to the slot. -/
structure Runtime (ω : Type) where
  world : ω
  current_exception : JSCValue
  ref_count : Ptr → ℤ
  log : List Event

variable {ω : Type}

namespace Runtime

/-- `JS_Throw`. The reference that comes with the value is the slot's. -/
def JS_Throw (rt : Runtime ω) (x : JSCValue) : Runtime ω :=
  { rt with
    current_exception := x
    ref_count := fun p => rt.ref_count p + oneAt x p - oneAt rt.current_exception p
    log := rt.log ++ [.threw x] }

/-- An exception is caught in the interpreter: what was in the slot has been freed. -/
def catchException (rt : Runtime ω) : Runtime ω :=
  { rt with
    current_exception := .null
    ref_count := fun p => rt.ref_count p - oneAt rt.current_exception p
    log := rt.log ++ [.cleared] }

/-- `JS_GetException`: the value and its reference are the caller's. -/
def JS_GetException (rt : Runtime ω) : JSCValue × Runtime ω :=
  (rt.current_exception, { rt with
    current_exception := .null
    log := rt.log ++ [.cleared] })

/-- `JS_FreeValue`. -/
def JS_FreeValue (rt : Runtime ω) (v : JSCValue) : Runtime ω :=
  { rt with ref_count := fun p => rt.ref_count p - oneAt v p }

/-- `JS_FreeCString`. -/
def JS_FreeCString (rt : Runtime ω) (c : CString) : Runtime ω :=
  { rt with ref_count := fun p => rt.ref_count p - one c.cell p }

/-- A call of the engine; `held` are the references that come with what it returns. -/
def call {α : Type} (rt : Runtime ω) (held : α → Ptr → ℤ) (f : ω → ω × Reply α) :
    Option α × Runtime ω :=
  match f rt.world with
  | (w, .value a caught) =>
    let rt := { rt with world := w }
    let rt := if caught then rt.catchException else rt
    (some a, { rt with ref_count := fun p => rt.ref_count p + held a p })
  -- `JS_EXCEPTION`, with the exception in the slot
  | (w, .throws x) => (none, { rt with world := w }.JS_Throw x)
  | (w, .fails) => (none, { rt with world := w })

end Runtime

namespace Engine

variable (E : Engine ω)

/-- `JS_ThrowError` and its kin: the error object is new. -/
def JS_ThrowError (rt : Runtime ω) (error_num : JSErrorEnum) (message : String) : Runtime ω :=
  let (w, obj) := E.errorObject rt.world error_num message
  { rt with world := w }.JS_Throw obj

/-- The values whose strings are those of atoms. -/
def atomText : JSCValue → Option (List Char)
  | .bool true => some ['t', 'r', 'u', 'e']
  | .bool false => some ['f', 'a', 'l', 's', 'e']
  | .null => some ['n', 'u', 'l', 'l']
  | .undefined => some ['u', 'n', 'd', 'e', 'f', 'i', 'n', 'e', 'd']
  | _ => none

/-- `JS_ToCString`. An exception is handed on, the strings of constants are there, a
symbol has no string; the rest is conversion, which can run JS code. -/
def toCString (rt : Runtime ω) (val : JSCValue) : Option CString × Runtime ω :=
  match val with
  | .exception => (none, rt)
  | .ptr .symbol _ =>
    (none, E.JS_ThrowError rt .JS_TYPE_ERROR "cannot convert symbol to string")
  | _ =>
    match atomText val with
    | some s =>
      rt.call (fun c => one c.cell)
        (fun w => (w, .value ⟨E.JS_AtomToString (Utf.utf8 s), Utf.utf8 s⟩ false))
    | none => rt.call (fun c => one c.cell) (fun w => E.JS_ToCString w val)

/-- `JS_GetPropertyStr`. -/
def getPropertyStr (rt : Runtime ω) (this_obj : JSCValue) (prop : String) :
    JSCValue × Runtime ω :=
  match rt.call oneAt (fun w => E.JS_GetPropertyStr w this_obj prop) with
  | (some v, rt) => (v, rt)
  | (none, rt) => (.exception, rt)

/-- `JS_GetPropertyUint32`. -/
def getPropertyUint32 (rt : Runtime ω) (this_obj : JSCValue) (idx : UInt32) :
    JSCValue × Runtime ω :=
  match rt.call oneAt (fun w => E.JS_GetPropertyUint32 w this_obj idx) with
  | (some v, rt) => (v, rt)
  | (none, rt) => (.exception, rt)

/-! ## From a value to an index -/

/-- `JS_ToNumberHintFree` for a primitive, with `none` for an exception. -/
def numberOfPrimitive (rt : Runtime ω) (val : JSCValue) : Option JSCValue × Runtime ω :=
  match val with
  | .float64 d => (some (.float64 d), rt)
  | .int v => (some (.int v), rt)
  | .exception => (none, rt)
  | .bool b => (some (.int (if b then 1 else 0)), rt)
  | .null => (some (.int 0), rt)
  | .undefined => (some JS_NAN, rt)
  | .ptr .string _ =>
    match E.toCString rt val with
    | (some c, rt) => (some (numberOfText E.js_strtod c.bytes), rt.JS_FreeCString c)
    | (none, rt) => (none, rt)
  | .ptr .symbol _ =>
    (none, E.JS_ThrowError rt .JS_TYPE_ERROR "cannot convert symbol to number")
  | _ => (some JS_NAN, rt)

/-- `JS_ToNumberFree` of a duplicate: an object becomes a primitive first. -/
def toNumber (rt : Runtime ω) (val : JSCValue) : Option JSCValue × Runtime ω :=
  match val with
  | .ptr .object _ =>
    match rt.call oneAt (fun w => E.JS_ToPrimitive w val) with
    | (none, rt) => (none, rt)
    | (some prim, rt) =>
      let (num, rt) := E.numberOfPrimitive rt prim
      (num, rt.JS_FreeValue prim)
  | _ => E.numberOfPrimitive rt val

/-- `isnan`. -/
def isnan (d : BitVec 64) : Bool := Binary64.expo d == 2047 && Binary64.frac d != 0

/-- The `JS_TAG_FLOAT64` case of `JS_ToInt64SatFree`. -/
def saturate (d : BitVec 64) : ℤ :=
  if isnan d then 0 else max (-2 ^ 63) (min (2 ^ 63 - 1) (Binary64.trunc d))

/-- `JS_ToInt64Sat` for a number. -/
def satOfNumber : JSCValue → ℤ
  | .int v => v.toInt
  | .float64 d => saturate d
  | _ => 0

/-- `JS_ToInt64Sat`. -/
def toInt64Sat (rt : Runtime ω) (val : JSCValue) : Option ℤ × Runtime ω :=
  match val with
  | .int v => (some v.toInt, rt)
  | .bool b => (some (if b then 1 else 0), rt)
  | .null => (some 0, rt)
  | .undefined => (some 0, rt)
  | .exception => (none, rt)
  | .float64 d => (some (saturate d), rt)
  | _ =>
    match E.toNumber rt val with
    | (none, rt) => (none, rt)
    | (some num, rt) => (some (satOfNumber num), rt)

/-- `MAX_SAFE_INTEGER`. -/
def MAX_SAFE_INTEGER : ℤ := 2 ^ 53 - 1

/-- `JS_ToIndex`. -/
def toIndex (rt : Runtime ω) (val : JSCValue) : Option ℕ × Runtime ω :=
  match E.toInt64Sat rt val with
  | (none, rt) => (none, rt)
  | (some v, rt) =>
    if v < 0 ∨ MAX_SAFE_INTEGER < v then
      (none, E.JS_ThrowError rt .JS_RANGE_ERROR "invalid array index")
    else (some v.toNat, rt)

end Engine

end QuickJSSwift
