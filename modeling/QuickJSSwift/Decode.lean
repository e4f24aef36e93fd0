/-
The failable initialisers of `ConvertibleWithJavascript` (`JSValue.swift`): from a JS value
to a Swift value or `nil`.

Strings are what the engine converts the value to, numbers must be numbers already, a
`JSError` is the exception value, and an array is read property by property. The array
initialiser reads `length`, and then asks `JS_ToIndex` for the size of the array object
itself and not of that length. So it runs as many turns as the object, taken for a number,
says: none for `[1, 2]`, which is `NaN`, and three for `[3]`. Its loop index is a
`UInt64` that `UInt32(index)` narrows, with a trap from `2 ^ 32` on; and nothing frees the
elements that it reads.
-/
import QuickJSSwift.Engine

set_option autoImplicit false

namespace QuickJSSwift.Decode

open Number Engine

variable {ω : Type}

/-! ## Types and outcomes -/

/-- `JSError`. -/
inductive JSError
  | exception
  deriving DecidableEq, Repr

/-- The types that conform to `ConvertibleWithJavascript`. -/
inductive Conforming
  | string
  | int (A : IntType)
  | double
  | error
  | array (element : Conforming)
  deriving DecidableEq, Repr

/-- The Swift values of a type. -/
@[reducible] def Conforming.Carrier : Conforming → Type
  | .string => List Char
  | .int A => A.Carrier
  | .double => BitVec 64
  | .error => JSError
  | .array T => List T.Carrier

/-- How an initialiser ends: it returns a value or `nil`, or Swift stops the program. -/
inductive Outcome (ω α : Type)
  | returned (a : Option α) (rt : Runtime ω)
  | trapped

/-! ## The initialisers -/

/-- `String.init?(_:value:)`. -/
def String.initValue (E : Engine ω) (rt : Runtime ω) (value : JSCValue) :
    Outcome ω (List Char) :=
  match E.toCString rt value with
  | (some cString, rt) =>
    .returned (some (Text.String.initCString cString.bytes)) (rt.JS_FreeCString cString)
  | (none, rt) => .returned none rt

/-- `JS_ToFloat64` of a number. -/
def JS_ToFloat64 : JSCValue → Option (BitVec 64)
  | .int v => some (Binary64.ofInt v.toInt)
  | .float64 d => some d
  | _ => none

/-- `Double.init?(_:value:)`. -/
def Double.initValue (value : JSCValue) : Option (BitVec 64) :=
  if JS_IsNumber value then JS_ToFloat64 value else none

/-- `JSError.init?(_:value:)`. -/
def JSError.initValue (value : JSCValue) : Option JSError :=
  if JS_IsException value then some .exception else none

/-- The loop of `Array.init?(_:value:)`, with `turns` to go. -/
def arrayLoop {α : Type} (E : Engine ω) (element : Runtime ω → JSCValue → Outcome ω α)
    (value : JSCValue) : (turns index : ℕ) → List α → Runtime ω → Outcome ω (List α)
  | 0, _, self, rt => .returned (some self) rt
  | turns + 1, index, self, rt =>
    -- `UInt32(index)`
    if index < 2 ^ 32 then
      let (v, rt) := E.getPropertyUint32 rt value (UInt32.ofNat index)
      match element rt v with
      | .returned (some ele) rt => arrayLoop E element value turns (index + 1) (self ++ [ele]) rt
      | .returned none rt => .returned none rt
      | .trapped => .trapped
    else .trapped

/-- The `defer` of `Array.init?(_:value:)`. -/
def Outcome.free {α : Type} (length : JSCValue) : Outcome ω α → Outcome ω α
  | .returned a rt => .returned a (rt.JS_FreeValue length)
  | .trapped => .trapped

/-- `Array.init?(_:value:)`. -/
def Array.initValue {α : Type} (E : Engine ω) (element : Runtime ω → JSCValue → Outcome ω α)
    (rt : Runtime ω) (value : JSCValue) : Outcome ω (List α) :=
  if JS_IsObject value then
    let (length, rt) := E.getPropertyStr rt value "length"
    Outcome.free length <|
      match E.toIndex rt value with
      | (none, rt) => .returned none rt
      | (some size, rt) => arrayLoop E element value size 0 [] rt
  else .returned none rt

/-- `T(context, value: value)`. A number needs no conversion by the engine. -/
def initValue (E : Engine ω) : (T : Conforming) → Runtime ω → JSCValue → Outcome ω T.Carrier
  | .string, rt, value => String.initValue E rt value
  | .int A, rt, value => .returned (A.initValue (fun _ => none) value) rt
  | .double, rt, value => .returned (Double.initValue value) rt
  | .error, rt, value => .returned (JSError.initValue value) rt
  | .array T, rt, value => Array.initValue E (initValue E T) rt value

end QuickJSSwift.Decode
