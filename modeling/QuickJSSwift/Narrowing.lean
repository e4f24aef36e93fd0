/-
Narrowing conversions that trap (`JSValue.swift`).

Swift's `UInt32(x)` stops the program when `x` does not fit. There are two on the paths
between Swift and the engine: `UInt.jsValue` narrows its value, and the array initialiser
narrows its loop index, a `UInt64` that runs up to what `JS_ToIndex` has returned, at most
`2 ^ 53 - 1`. `Int` and `Int64` are the same words, so the conversions between them keep
the value.

Whether the loop gets as far as the index `2 ^ 32` depends on the elements before it: one
that does not decode ends it. `Fits` says it in terms of the elements that a decoder comes
to, at all depths of the type.
-/
import QuickJSSwift.DecodeElements

set_option autoImplicit false

namespace QuickJSSwift.Decode

open Number Engine Ownership

variable {ω : Type}

/-! ## Encoding -/

/-- The Swift values with an encoder that returns. -/
inductive SwiftValue
  | string (s : List Char)
  | int (A : IntType) (n : A.Carrier)
  | double (d : BitVec 64)

/-- What an encoder returns: a word, or a new string, with `none` where the engine cannot
make one and the value is an exception. -/
inductive Encoded
  | value (v : JSCValue)
  | string (s : Option Text.JSString)

/-- `jsValue(context)`; `none` is a trap. -/
def SwiftValue.jsValue : SwiftValue → Option Encoded
  | .string s => some (.string (Text.String.jsValue s))
  | .int A n => (A.jsValue n).map .value
  | .double d => some (.value (JS_NewFloat64 d))

/-- The value is no `UInt` of more than 32 bits. -/
def SwiftValue.Fits : SwiftValue → Prop
  | .int .uint n => n.toNat < 2 ^ 32
  | _ => True

theorem UInt_jsValue_ne_none_iff (n : UInt64) : UInt.jsValue n ≠ none ↔ n.toNat < 2 ^ 32 := by
  have hle : n ≤ 0xffffffff ↔ n.toNat < 2 ^ 32 := by
    rw [UInt64.le_iff_toNat_le]
    change n.toNat ≤ 2 ^ 32 - 1 ↔ _
    omega
  unfold UInt.jsValue
  split_ifs with h
  · exact iff_of_true (by simp) (hle.mp h)
  · exact iff_of_false (by simp) (fun hlt => h (hle.mpr hlt))

theorem jsValue_ne_none_iff (x : SwiftValue) : x.jsValue ≠ none ↔ x.Fits := by
  cases x with
  | string s => exact iff_of_true (by simp [SwiftValue.jsValue]) trivial
  | double d => exact iff_of_true (by simp [SwiftValue.jsValue]) trivial
  | int A n =>
    have hmap : (SwiftValue.int A n).jsValue ≠ none ↔ A.jsValue n ≠ none := by
      rw [SwiftValue.jsValue, ne_eq, Option.map_eq_none_iff]
    rw [hmap]
    cases A with
    | uint => exact UInt_jsValue_ne_none_iff n
    | _ => exact iff_of_true (by simp [IntType.jsValue]) trivial

/-! ## Decoding -/

/-- No array loop gets beyond the 32-bit indices. `JS_ToIndex` of the array object is at
most `2 ^ 32`, or one of the first `2 ^ 32` elements does not decode; and the elements
that the loop comes to fit in turn. -/
def Fits (E : Engine ω) : (T : Conforming) → Runtime ω → JSCValue → Prop
  | .array T, rt, value =>
    JS_IsObject value → ∀ size rt',
      E.toIndex (E.getPropertyStr rt value "length").2 value = (some size, rt') →
      (size ≤ 2 ^ 32 ∨ firstElements E (initValue E T) value rt' (2 ^ 32) = none) ∧
        ∀ i < size, i < 2 ^ 32 → ∀ l rt₁,
          firstElements E (initValue E T) value rt' i = some (l, rt₁) →
          Fits E T (E.getPropertyUint32 rt₁ value (UInt32.ofNat i)).2
            (E.getPropertyUint32 rt₁ value (UInt32.ofNat i)).1
  | _, _, _ => True

theorem free_eq_trapped_iff {α : Type} (length : JSCValue) (o : Outcome ω α) :
    o.free length = .trapped ↔ o = .trapped := by
  cases o with
  | trapped => exact Iff.rfl
  | returned a rt => exact iff_of_false (by simp [Outcome.free]) (by simp)

/-- The array initialiser traps where its loop does. -/
theorem array_trapped_iff {α : Type} (E : Engine ω)
    (element : Runtime ω → JSCValue → Outcome ω α) (rt : Runtime ω) (value : JSCValue) :
    Array.initValue E element rt value = .trapped ↔
      JS_IsObject value = true ∧ ∃ size rt',
        E.toIndex (E.getPropertyStr rt value "length").2 value = (some size, rt') ∧
        arrayLoop E element value size 0 [] rt' = .trapped := by
  unfold Array.initValue
  split_ifs with hobj
  · dsimp only
    rw [free_eq_trapped_iff, and_iff_right hobj]
    split
    · next h => exact iff_of_false (by simp) (by simp [h])
    · next size rt' h =>
      rw [h]
      constructor
      · exact fun hloop => ⟨size, rt', rfl, hloop⟩
      · rintro ⟨size', rt₁, ⟨⟩, hloop⟩
        exact hloop
  · exact iff_of_false (by simp) (fun h => hobj h.1)

/-- The loop does not trap if it ends before the index `2 ^ 32` and no element traps. -/
theorem arrayLoop_ne_trapped_iff {α : Type} {E : Engine ω}
    {element : Runtime ω → JSCValue → Outcome ω α} {value : JSCValue} (size : ℕ)
    (rt : Runtime ω) :
    arrayLoop E element value size 0 [] rt ≠ .trapped ↔
      (size ≤ 2 ^ 32 ∨ firstElements E element value rt (2 ^ 32) = none) ∧
        ∀ i < size, i < 2 ^ 32 → ∀ l rt₁, firstElements E element value rt i = some (l, rt₁) →
          elementAt E element value i rt₁ ≠ .trapped := by
  rw [ne_eq, arrayLoop_trapped_iff size rfl, Nat.zero_add]
  constructor
  · intro h
    constructor
    · by_contra hlong
      push Not at hlong
      obtain ⟨⟨l, rt'⟩, hfirst⟩ := Option.ne_none_iff_exists'.mp hlong.2
      exact h ⟨2 ^ 32, l, rt', Nat.zero_le _, hlong.1, hfirst, .inl le_rfl⟩
    · intro i hi _ l rt₁ hfirst htrap
      exact h ⟨i, l, rt₁, Nat.zero_le _, hi, hfirst, .inr htrap⟩
  · rintro ⟨hlong, hele⟩ ⟨i, l, rt', -, hi, hfirst, hbad⟩
    by_cases hlt : i < 2 ^ 32
    · exact hele i hi hlt l rt' hfirst (hbad.resolve_left (by omega))
    · -- The loop cannot have come so far.
      have hnone := firstElements_mono (by omega : 2 ^ 32 ≤ i) (hlong.resolve_left (by omega))
      rw [hnone] at hfirst
      cases hfirst

/-- **Every initialiser returns** exactly if the value fits. -/
theorem initValue_ne_trapped_iff (E : Engine ω) (T : Conforming) (rt : Runtime ω)
    (value : JSCValue) : initValue E T rt value ≠ .trapped ↔ Fits E T rt value := by
  induction T generalizing rt value with
  | array T ih =>
    rw [initValue, ne_eq, array_trapped_iff, Fits]
    push Not
    refine imp_congr_right fun _ => forall_congr' fun size => forall_congr' fun rt' =>
      imp_congr_right fun _ => (arrayLoop_ne_trapped_iff size rt').trans ?_
    refine and_congr_right fun _ => forall_congr' fun i => imp_congr_right fun _ =>
      imp_congr_right fun _ => forall_congr' fun l => forall_congr' fun rt₁ =>
      imp_congr_right fun _ => ?_
    exact ih _ _
  | string =>
    refine iff_of_true ?_ trivial
    change String.initValue E rt value ≠ .trapped
    unfold String.initValue
    split <;> simp
  | _ => exact iff_of_true (by simp [initValue]) trivial

/-- **The conversions return** exactly if no `UInt` of more than 32 bits is encoded and no
array loop gets beyond the 32-bit indices. -/
theorem conversions_return_iff (x : SwiftValue) (E : Engine ω) (T : Conforming) (rt : Runtime ω)
    (value : JSCValue) :
    (x.jsValue ≠ none ↔ x.Fits) ∧
      (initValue E T rt value ≠ .trapped ↔ Fits E T rt value) :=
  ⟨jsValue_ne_none_iff x, initValue_ne_trapped_iff E T rt value⟩

/-- An object at address 1 that is `4294967297` as a number, without elements. -/
def longObject : Engine Unit :=
  { oneElement .undefined with
    JS_ToPrimitive := fun w _ => (w, .value (.float64 0x41f0000000100000#64) false) }

/-- Encoding the `UInt` `2 ^ 32` traps. So does decoding `longObject` as `[String]`: all of
its `2 ^ 32` first elements are `"undefined"`. -/
theorem conversions_trap :
    (SwiftValue.int .uint (4294967296 : UInt64)).jsValue = none ∧
      initValue longObject (.array .string) quietRuntime (.ptr .object 1) = .trapped := by
  refine ⟨by decide, ?_⟩
  -- Every element decodes, so every index is reached.
  have hele : ∀ i rt, ∃ s rt', elementAt longObject (initValue longObject .string)
      (.ptr .object 1) i rt = .returned (some s) rt' := by
    intro i rt
    have hread : (longObject.getPropertyUint32 rt (.ptr .object 1) (UInt32.ofNat i)).1 = .undefined :=
      ite_self _
    unfold elementAt
    dsimp only
    rw [hread]
    exact ⟨_, _, rfl⟩
  have hfirst : ∀ rt n, firstElements longObject (initValue longObject .string) (.ptr .object 1)
      rt n ≠ none := by
    intro rt n
    induction n with
    | zero => simp [firstElements]
    | succ n ih =>
      obtain ⟨⟨self, rt₁⟩, h⟩ := Option.ne_none_iff_exists'.mp ih
      obtain ⟨s, rt', hs⟩ := hele n rt₁
      rw [firstElements_succ h, hs]
      simp
  by_contra h
  have hfits := (initValue_ne_trapped_iff longObject (.array .string) quietRuntime _).mp h rfl
    4294967297 _ (Prod.ext (by decide +kernel) rfl)
  rcases hfits.1 with hle | hnone
  · omega
  · exact hfirst _ _ hnone

end QuickJSSwift.Decode
