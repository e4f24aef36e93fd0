/-
The engine's value word, `JSValue` of `quickjs.h`, as the Swift layer sees it under
the name `JSCValue`.

The target is 64-bit, so `JS_NAN_BOXING` is off and a value is a tag and a union.
The union is read only through the accessor its tag selects, so a value is modelled
as one constructor per tag family with the payload that family carries. The tag
numbers themselves are kept (`JS_VALUE_GET_TAG`), because the reference-count test
is an unsigned comparison of tags and not a list of cases.
-/
import Mathlib.Tactic.Common

set_option autoImplicit false

namespace QuickJSSwift

/-- Addresses: of heap values, of module definitions, of Swift objects. -/
abbrev Ptr := ℕ

/-- The negative tags, "all tags with a reference count are negative". -/
inductive HeapTag
  | bigDecimal
  | bigInt
  | bigFloat
  | symbol
  | string
  | module
  | functionBytecode
  | object
  deriving DecidableEq, Repr

/-- `JSValue` of the engine. A double is its bit pattern. -/
inductive JSCValue
  | int (v : Int32)
  | bool (b : Bool)
  | null
  | undefined
  | uninitialized
  | catchOffset (v : Int32)
  | exception
  | float64 (d : BitVec 64)
  | ptr (t : HeapTag) (p : Ptr)
  deriving DecidableEq, Repr

/-- The tag numbers of the `JS_TAG_*` enumeration. -/
def HeapTag.number : HeapTag → Int32
  | .bigDecimal => -11
  | .bigInt => -10
  | .bigFloat => -9
  | .symbol => -8
  | .string => -7
  | .module => -3
  | .functionBytecode => -2
  | .object => -1

/-- `JS_TAG_FIRST`, the first negative tag. -/
def JS_TAG_FIRST : Int32 := -11

/-- `JS_VALUE_GET_TAG`. -/
def JS_VALUE_GET_TAG : JSCValue → Int32
  | .ptr t _ => t.number
  | .int _ => 0
  | .bool _ => 1
  | .null => 2
  | .undefined => 3
  | .uninitialized => 4
  | .catchOffset _ => 5
  | .exception => 6
  | .float64 _ => 7

/-- `JS_VALUE_HAS_REF_COUNT`: the tag, read as unsigned, is at least the first
negative one. -/
def JS_VALUE_HAS_REF_COUNT (v : JSCValue) : Bool :=
  JS_TAG_FIRST.toUInt32 ≤ (JS_VALUE_GET_TAG v).toUInt32

/-- `JS_VALUE_GET_PTR`, for the values that have one. -/
def JS_VALUE_GET_PTR : JSCValue → Option Ptr
  | .ptr _ p => some p
  | _ => none

/-- `JS_IsNumber`. -/
def JS_IsNumber (v : JSCValue) : Bool :=
  JS_VALUE_GET_TAG v == 0 || JS_VALUE_GET_TAG v == 7

/-- `JS_IsException`. -/
def JS_IsException (v : JSCValue) : Bool := JS_VALUE_GET_TAG v == 6

/-- `JS_IsUndefined`. -/
def JS_IsUndefined (v : JSCValue) : Bool := JS_VALUE_GET_TAG v == 3

/-- `JS_IsObject`. -/
def JS_IsObject (v : JSCValue) : Bool := JS_VALUE_GET_TAG v == -1

/-- The unsigned comparison singles out exactly the pointer tags. -/
theorem has_ref_count_iff (v : JSCValue) :
    JS_VALUE_HAS_REF_COUNT v = true ↔ ∃ t p, v = .ptr t p := by
  cases v with
  | ptr t p =>
    refine iff_of_true ?_ ⟨t, p, rfl⟩
    cases t <;> rfl
  | _ => exact iff_of_false (fun h => Bool.false_ne_true h) (by simp)

/-- The reference-counted values are those with a pointer. -/
theorem has_ref_count_eq (v : JSCValue) :
    JS_VALUE_HAS_REF_COUNT v = (JS_VALUE_GET_PTR v).isSome := by
  cases v with
  | ptr t p => exact (has_ref_count_iff _).mpr ⟨t, p, rfl⟩
  | _ => rfl

end QuickJSSwift
