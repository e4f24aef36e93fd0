/-
Array decoding against the elements of the array (`Array.init?(_:value:)`,
`JSValue.swift`).

Over a JS array without side effects, which is an engine with one world, the first elements
that the loop comes to are those of the array in index order. So all that can go wrong is
the number of turns: it comes from the array object, converted to a number, and not from
its `length`.
-/
import QuickJSSwift.DecodeFrame

set_option autoImplicit false

namespace QuickJSSwift.Decode

open Number Engine Ownership

variable {ω : Type}

/-! ## Engines without effects

In an engine over one world nothing that runs leaves a trace, so what a call answers is the
same in all runtimes. -/

section Pure

variable (E : Engine Unit)

/-- What a call returns. -/
def Reply.result {α : Type} : Reply α → Option α
  | .value a _ => some a
  | _ => none

theorem call_fst {α : Type} (rt : Runtime ω) (held : α → Ptr → ℤ) (f : ω → ω × Reply α) :
    (rt.call held f).1 = Reply.result (f rt.world).2 := by
  unfold Runtime.call
  obtain ⟨w, r⟩ := f rt.world
  cases r <;> rfl

theorem toCString_fst (rt rt' : Runtime Unit) (val : JSCValue) :
    (E.toCString rt val).1 = (E.toCString rt' val).1 := by
  unfold Engine.toCString
  split
  · rfl
  · rfl
  · split
    · rw [call_fst, call_fst]
    · rw [call_fst, call_fst]

theorem getPropertyUint32_fst (rt rt' : Runtime Unit) (this_obj : JSCValue) (idx : UInt32) :
    (E.getPropertyUint32 rt this_obj idx).1 = (E.getPropertyUint32 rt' this_obj idx).1 := by
  have hread : ∀ rt : Runtime Unit, (E.getPropertyUint32 rt this_obj idx).1 =
      (Reply.result (E.JS_GetPropertyUint32 () this_obj idx).2).getD .exception := by
    intro rt
    rw [← call_fst rt oneAt (fun w => E.JS_GetPropertyUint32 w this_obj idx)]
    unfold Engine.getPropertyUint32
    split
    · next h => rw [h]; rfl
    · next h => rw [h]; rfl
  rw [hread, hread]

theorem numberOfPrimitive_fst (rt rt' : Runtime Unit) (val : JSCValue) :
    (E.numberOfPrimitive rt val).1 = (E.numberOfPrimitive rt' val).1 := by
  cases val with
  | ptr t p =>
    cases t with
    | string =>
      have hcstr := toCString_fst E rt rt' (.ptr .string p)
      rw [numberOfPrimitive_string, numberOfPrimitive_string]
      generalize E.toCString rt (.ptr .string p) = r at hcstr ⊢
      generalize E.toCString rt' (.ptr .string p) = r' at hcstr ⊢
      obtain ⟨c, rt₁⟩ := r
      obtain ⟨c', rt₂⟩ := r'
      obtain rfl : c = c' := hcstr
      cases c <;> rfl
    | _ => rfl
  | _ => rfl

/-- An object as a number: the primitive that it becomes, as a number. -/
theorem toNumber_object_fst (rt rt' : Runtime Unit) (p : Ptr) :
    (E.toNumber rt (.ptr .object p)).1 =
      (Reply.result (E.JS_ToPrimitive () (.ptr .object p)).2).bind
        (fun prim => (E.numberOfPrimitive rt' prim).1) := by
  rw [← call_fst rt oneAt (fun w => E.JS_ToPrimitive w (.ptr .object p)), Engine.toNumber]
  split
  · next h =>
    rw [h]
    rfl
  · next h =>
    rw [h]
    exact numberOfPrimitive_fst E _ rt' _

theorem toNumber_fst (rt rt' : Runtime Unit) (val : JSCValue) :
    (E.toNumber rt val).1 = (E.toNumber rt' val).1 := by
  cases val with
  | ptr t p =>
    cases t with
    | object => rw [toNumber_object_fst E rt rt, toNumber_object_fst E rt' rt]
    | _ => exact numberOfPrimitive_fst E rt rt' _
  | _ => exact numberOfPrimitive_fst E rt rt' _

theorem toInt64Sat_fst (rt rt' : Runtime Unit) (val : JSCValue) :
    (E.toInt64Sat rt val).1 = (E.toInt64Sat rt' val).1 := by
  by_cases hptr : ∃ t p, val = .ptr t p
  · obtain ⟨t, p, rfl⟩ := hptr
    rw [toInt64Sat_ptr, toInt64Sat_ptr]
    exact congrArg (Option.map satOfNumber) (toNumber_fst E rt rt' _)
  · push Not at hptr
    obtain ⟨v, h⟩ := toInt64Sat_of_not_ptr E hptr
    rw [h, h]

/-- What the engine makes of a value as an index. -/
theorem toIndex_fst (rt rt' : Runtime Unit) (val : JSCValue) :
    (E.toIndex rt val).1 = (E.toIndex rt' val).1 := by
  have hsat := toInt64Sat_fst E rt rt' val
  unfold Engine.toIndex
  generalize E.toInt64Sat rt val = r at hsat ⊢
  generalize E.toInt64Sat rt' val = r' at hsat ⊢
  obtain ⟨v, rt₁⟩ := r
  obtain ⟨v', rt₂⟩ := r'
  obtain rfl : v = v' := hsat
  cases v with
  | none => rfl
  | some v =>
    dsimp only
    split_ifs <;> rfl

/-- An object that is not a number has the index `0`. -/
theorem toIndex_of_nan (rt : Runtime Unit) {p : Ptr}
    (h : (E.toNumber rt (.ptr .object p)).1 = some JS_NAN) :
    (E.toIndex rt (.ptr .object p)).1 = some 0 := by
  have hsat : (E.toInt64Sat rt (.ptr .object p)).1 = some 0 := by
    rw [toInt64Sat_ptr, h]
    rfl
  unfold Engine.toIndex
  generalize E.toInt64Sat rt (.ptr .object p) = r at hsat ⊢
  obtain ⟨v, rt₁⟩ := r
  obtain rfl : v = some 0 := hsat
  rfl

/-! ## The elements of an array -/

/-- What an initialiser returns: a value, unless it returns `nil` or traps. -/
def Outcome.result {α : Type} : Outcome ω α → Option α
  | .returned a _ => a
  | .trapped => none

variable {E} {α : Type} {element : Runtime Unit → JSCValue → Outcome Unit α} {value : JSCValue}

theorem elementAt_result (helement : ∀ rt rt' v, (element rt v).result = (element rt' v).result)
    (index : ℕ) (rt rt' : Runtime Unit) :
    (elementAt E element value index rt).result = (elementAt E element value index rt').result := by
  unfold elementAt
  dsimp only
  rw [getPropertyUint32_fst E rt rt']
  exact helement _ _ _

/-- The first elements are the decoded elements below the index. -/
theorem firstElements_iff (helement : ∀ rt rt' v, (element rt v).result = (element rt' v).result)
    (rt : Runtime Unit) (index : ℕ) (l : List α) :
    (∃ rt', firstElements E element value rt index = some (l, rt')) ↔
      l.length = index ∧ ∀ i < index, (elementAt E element value i rt).result = l[i]? := by
  induction index generalizing l with
  | zero =>
    rw [firstElements]
    constructor
    · rintro ⟨rt', ⟨⟩⟩
      exact ⟨rfl, fun i hi => absurd hi (Nat.not_lt_zero i)⟩
    · rintro ⟨hlen, -⟩
      rw [List.length_eq_zero_iff.mp hlen]
      exact ⟨rt, rfl⟩
  | succ index ih =>
    constructor
    · rintro ⟨rt', h⟩
      rw [firstElements] at h
      split at h
      · cases h
      · next self rt₁ hself =>
        obtain ⟨hlen, hall⟩ := (ih self).mp ⟨rt₁, hself⟩
        split at h
        · next ele rt₂ hele =>
          cases h
          refine ⟨by rw [List.length_append, hlen]; rfl, fun i hi => ?_⟩
          rcases Nat.lt_succ_iff_lt_or_eq.mp hi with hlt | heq
          · rw [List.getElem?_append_left (hlen ▸ hlt)]
            exact hall i hlt
          · rw [heq, elementAt_result helement index rt rt₁, hele, ← hlen, List.getElem?_concat_length]
            rfl
        · cases h
    · rintro ⟨hlen, hall⟩
      obtain ⟨self, ele, rfl⟩ : ∃ self ele, l = self ++ [ele] := by
        rcases List.eq_nil_or_concat' l with hnil | ⟨self, ele, h⟩
        · rw [hnil] at hlen
          cases hlen
        · exact ⟨self, ele, h⟩
      have hself : self.length = index := by
        rw [List.length_append] at hlen
        exact Nat.succ.inj hlen
      obtain ⟨rt₁, hfirst⟩ := (ih self).mpr ⟨hself, fun i hi => by
        rw [hall i (by omega), List.getElem?_append_left (hself ▸ hi)]⟩
      have hlast := hall index (Nat.lt_succ_self index)
      rw [elementAt_result helement index rt rt₁, ← hself, List.getElem?_concat_length] at hlast
      rw [firstElements_succ hfirst, ← hself]
      cases hele : elementAt E element value self.length rt₁ with
      | trapped =>
        rw [hele] at hlast
        cases hlast
      | returned a rt₂ =>
        rw [hele] at hlast
        change a = some ele at hlast
        rw [hlast]
        exact ⟨rt₂, rfl⟩

/-- **What `Array.init?` returns** is as long as the array object is as an index. -/
theorem array_result_iff (helement : ∀ rt rt' v, (element rt v).result = (element rt' v).result)
    (rt : Runtime Unit) (p : Ptr) (l : List α) :
    (Array.initValue E element rt (.ptr .object p)).result = some l ↔
      ∃ size, (E.toIndex rt (.ptr .object p)).1 = some size ∧ size ≤ 2 ^ 32 ∧ l.length = size ∧
        ∀ i < size, (elementAt E element (.ptr .object p) i rt).result = l[i]? := by
  have hfree : ∀ (length : JSCValue) (o : Outcome Unit (List α)), (o.free length).result = o.result := by
    intro length o
    cases o <;> rfl
  have hobj : JS_IsObject (.ptr .object p) = true := rfl
  have hindex := toIndex_fst E (E.getPropertyStr rt (.ptr .object p) "length").2 rt (.ptr .object p)
  unfold Array.initValue
  rw [if_pos hobj]
  dsimp only
  rw [hfree]
  split
  · next h =>
    rw [h] at hindex
    rw [← hindex]
    exact iff_of_false (by simp [Outcome.result]) (by simp)
  · next size rt₁ h =>
    rw [h] at hindex
    rw [← hindex]
    have hsame : ∀ i, (elementAt E element (.ptr .object p) i rt₁).result =
        (elementAt E element (.ptr .object p) i rt).result :=
      fun i => elementAt_result helement i rt₁ rt
    have hfirst := @firstElements_iff E _ _ (.ptr .object p) helement rt₁ size l
    have hret : (arrayLoop E element (.ptr .object p) size 0 [] rt₁).result = some l ↔
        ∃ rt', arrayLoop E element (.ptr .object p) size 0 [] rt₁ = .returned (some l) rt' := by
      cases arrayLoop E element (.ptr .object p) size 0 [] rt₁ with
      | trapped => exact iff_of_false (by simp [Outcome.result]) (by simp)
      | returned a rt₂ => simp [Outcome.result]
    rw [hret]
    constructor
    · rintro ⟨rt', h⟩
      obtain ⟨hle, hlist⟩ := (arrayLoop_returned_iff size rfl (Nat.zero_le _) l rt').mp h
      rw [Nat.zero_add] at hle hlist
      obtain ⟨hlen, hall⟩ := hfirst.mp ⟨rt', hlist⟩
      exact ⟨size, rfl, hle, hlen, fun i hi => (hsame i).symm.trans (hall i hi)⟩
    · rintro ⟨size', ⟨⟩, hle, hlen, hall⟩
      obtain ⟨rt', hlist⟩ := hfirst.mpr ⟨hlen, fun i hi => (hsame i).trans (hall i hi)⟩
      refine ⟨rt', (arrayLoop_returned_iff size rfl (Nat.zero_le _) l rt').mpr ?_⟩
      rw [Nat.zero_add]
      exact ⟨hle, hlist⟩

/-- What an initialiser returns is the same in all runtimes. -/
theorem initValue_result (E : Engine Unit) (T : Conforming) (rt rt' : Runtime Unit) (v : JSCValue) :
    (initValue E T rt v).result = (initValue E T rt' v).result := by
  induction T generalizing rt rt' v with
  | string =>
    have hcstr := toCString_fst E rt rt' v
    change (String.initValue E rt v).result = (String.initValue E rt' v).result
    unfold String.initValue
    generalize E.toCString rt v = r at hcstr ⊢
    generalize E.toCString rt' v = r' at hcstr ⊢
    obtain ⟨c, rt₁⟩ := r
    obtain ⟨c', rt₂⟩ := r'
    obtain rfl : c = c' := hcstr
    cases c <;> rfl
  | array T ih =>
    cases v with
    | ptr t p =>
      cases t with
      | object =>
        refine Option.ext fun l => ?_
        change (Array.initValue E (initValue E T) rt _).result = some l ↔
          (Array.initValue E (initValue E T) rt' _).result = some l
        have hsame := fun i => @elementAt_result E _ _ (.ptr .object p) ih i rt rt'
        rw [array_result_iff ih, array_result_iff ih, toIndex_fst E rt rt']
        simp only [hsame]
      | _ => rfl
    | _ => rfl
  | _ => rfl

end Pure

/-! ## Commas

Two or more elements are joined with commas, and no number is read across one: an array of
that length is `NaN`, and its index is `0`. -/

section Comma

variable {p rest : List UInt8}

theorem mem_tail_of_headByte (h : headByte p ≠ 0x2c) (hp : 0x2c ∈ p) : 0x2c ∈ p.tail := by
  cases p with
  | nil => exact hp
  | cons c p => exact (List.mem_cons.mp hp).resolve_left (fun heq => h heq.symm)

theorem mem_dropWhile_of_not {q : UInt8 → Bool} (hq : q 0x2c = false) (hp : 0x2c ∈ p) :
    0x2c ∈ p.dropWhile q := by
  induction p with
  | nil => exact hp
  | cons c p ih =>
    rw [List.dropWhile_cons]
    split_ifs with h
    · refine ih ((List.mem_cons.mp hp).resolve_left ?_)
      rintro rfl
      rw [hq] at h
      cases h
    · exact hp

theorem comma_continuation {i c c' : ℕ} (h : Text.continuation i c p = some (c', rest))
    (hp : 0x2c ∈ p) : 0x2c ∈ rest := by
  induction i generalizing c p with
  | zero =>
    cases h
    exact hp
  | succ i ih =>
    cases p with
    | nil => cases h
    | cons b p =>
      rw [Text.continuation] at h
      split_ifs at h with hb
      refine ih h ((List.mem_cons.mp hp).resolve_left ?_)
      rintro rfl
      exact hb (.inl (by decide))

theorem comma_unicode_from_utf8 {c : ℕ} {max_len : ℤ}
    (h : Text.unicode_from_utf8 p max_len = some (c, rest)) (hc : 0x80 ≤ headByte p)
    (hp : 0x2c ∈ p) : 0x2c ∈ rest := by
  have hhead : headByte p ≠ 0x2c := by
    intro heq
    rw [heq] at hc
    exact absurd hc (by decide)
  have htail := mem_tail_of_headByte hhead hp
  cases p with
  | nil => cases hp
  | cons b p =>
    have hb : ¬ b < 0x80 := UInt8.not_lt.mpr hc
    rw [Text.unicode_from_utf8, if_neg hb] at h
    split at h
    · cases h
    · split_ifs at h
      split at h
      · cases h
      · next hcont =>
        split_ifs at h
        cases h
        exact comma_continuation hcont htail

theorem comma_skipSpace (h : skipSpace p = some rest) (hp : 0x2c ∈ p) : 0x2c ∈ rest := by
  cases p with
  | nil => cases hp
  | cons c p =>
    rw [skipSpace] at h
    split_ifs at h with hc hspace
    · cases h
      refine (List.mem_cons.mp hp).resolve_left ?_
      rintro rfl
      exact absurd hspace (by decide)
    · split at h
      · next hcode =>
        split_ifs at h
        cases h
        exact comma_unicode_from_utf8 hcode (UInt8.not_lt.mp hc) hp
      · cases h

theorem comma_skip_spaces (hp : 0x2c ∈ p) : 0x2c ∈ skip_spaces p := by
  have hgo : ∀ n p, 0x2c ∈ p → 0x2c ∈ skip_spaces.go n p := by
    intro n
    induction n with
    | zero => exact fun p hp => hp
    | succ n ih =>
      intro p hp
      rw [skip_spaces.go]
      split
      · next h => exact ih _ (comma_skipSpace h hp)
      · exact hp
  exact hgo _ p hp

theorem comma_skipDigits {radix : ℕ} (hradix : radix ≤ 36) (hp : 0x2c ∈ p) :
    0x2c ∈ skipDigits radix p :=
  mem_dropWhile_of_not (decide_eq_false (Nat.not_lt.mpr hradix)) hp

theorem comma_skipFraction {radix : ℕ} (hradix : radix ≤ 36) (digits : Bool) (hp : 0x2c ∈ p) :
    0x2c ∈ (skipFraction radix p digits).1 := by
  unfold skipFraction
  split_ifs with h
  · have hdot : headByte p ≠ 0x2c := by
      intro heq
      rw [heq] at h
      simp at h
    exact comma_skipDigits hradix (mem_tail_of_headByte hdot hp)
  · exact hp

theorem comma_skipExponent {radix : ℕ} (digits : Bool) (hp : 0x2c ∈ p) :
    0x2c ∈ (skipExponent radix p digits).1 := by
  unfold skipExponent
  split_ifs with h
  · -- Neither an exponent letter nor a sign nor a digit is a comma.
    have hletter : headByte p ≠ 0x2c := by
      intro heq
      rw [heq] at h
      simp at h
    have htail := mem_tail_of_headByte hletter hp
    have hdigits : ∀ {p1 : List UInt8}, Text.is_digit (headByte p1) = true → 0x2c ∈ p1 →
        0x2c ∈ p1.tail.dropWhile Text.is_digit := by
      intro p1 hdigit hp1
      refine mem_dropWhile_of_not rfl (mem_tail_of_headByte ?_ hp1)
      intro heq
      rw [heq] at hdigit
      exact absurd hdigit (by decide)
    dsimp only
    split_ifs with hsign hdigit hdigit
    · refine hdigits hdigit (mem_tail_of_headByte ?_ htail)
      intro heq
      rw [heq] at hsign
      exact absurd hsign (by decide)
    · exact hp
    · exact hdigits hdigit htail
    · exact hp
  · exact hp

variable (js_strtod : List UInt8 → ℕ → Bool → BitVec 64)

theorem comma_atofDigits {radix : ℕ} (hradix : radix ≤ 36) (is_neg : Bool) (hp : 0x2c ∈ p) :
    0x2c ∈ (atofDigits js_strtod radix is_neg p).2 := by
  have hscan : 0x2c ∈ (skipExponent radix (skipFraction radix (skipDigits radix p)
      ((skipDigits radix p).length < p.length)).1
      ((skipFraction radix (skipDigits radix p) ((skipDigits radix p).length < p.length)).1.length
        < p.length)).1 :=
    comma_skipExponent _ (comma_skipFraction hradix _ (comma_skipDigits hradix hp))
  unfold atofDigits
  dsimp only
  split_ifs <;> exact hscan

theorem comma_atofDecimal (is_neg : Bool) (hp : 0x2c ∈ p) :
    0x2c ∈ (atofDecimal js_strtod is_neg p).2 := by
  unfold atofDecimal
  split_ifs with h
  · obtain ⟨rest, rfl⟩ := List.isPrefixOf_iff_prefix.mp h
    rw [List.drop_left]
    exact (List.mem_append.mp hp).resolve_left (by decide)
  · exact comma_atofDigits js_strtod (by decide) is_neg hp

theorem comma_atofPrefixed {radix : ℕ} (hradix : radix ≤ 36) (hp : 0x2c ∈ p) :
    0x2c ∈ (atofPrefixed js_strtod radix p).2 := by
  unfold atofPrefixed
  split_ifs
  · exact hp
  · exact comma_atofDigits js_strtod hradix false hp

/-- A comma is left over. -/
theorem comma_js_atof (hp : 0x2c ∈ p) : 0x2c ∈ (js_atof js_strtod p).2 := by
  have htail : ∀ {p : List UInt8} {b : UInt8}, (headByte p == b) = true → b ≠ 0x2c → 0x2c ∈ p →
      0x2c ∈ p.tail := by
    intro p b h hb hp
    exact mem_tail_of_headByte (fun heq => hb ((eq_of_beq h).symm.trans heq)) hp
  -- The letter of a radix prefix is no comma either.
  have hdrop : ∀ {b b' : UInt8}, (headByte p == 0x30) = true →
      (headByte p.tail == b || headByte p.tail == b') = true → b ≠ 0x2c → b' ≠ 0x2c →
      0x2c ∈ p.drop 2 := by
    intro b b' hzero h hb hb'
    have hp1 := htail hzero (by decide) hp
    rw [← List.tail_drop, List.drop_one]
    rcases Bool.or_eq_true_iff.mp h with h | h
    · exact htail h hb hp1
    · exact htail h hb' hp1
  unfold js_atof
  dsimp only
  split_ifs with hplus hminus hzero hx ho hb
  · exact comma_atofDecimal js_strtod false (htail hplus (by decide) hp)
  · exact comma_atofDecimal js_strtod true (htail hminus (by decide) hp)
  · exact comma_atofPrefixed js_strtod (by decide) (hdrop hzero hx (by decide) (by decide))
  · exact comma_atofPrefixed js_strtod (by decide) (hdrop hzero ho (by decide) (by decide))
  · exact comma_atofPrefixed js_strtod (by decide) (hdrop hzero hb (by decide) (by decide))
  · exact comma_atofDigits js_strtod (by decide) false hp
  · exact comma_atofDecimal js_strtod false hp

/-- **Text with a comma is not a number.** -/
theorem numberOfText_comma (hp : 0x2c ∈ p) : numberOfText js_strtod p = JS_NAN := by
  have hne : ∀ {p : List UInt8}, 0x2c ∈ p → p ≠ [] := fun h => List.ne_nil_of_mem h
  have hspaces := comma_skip_spaces hp
  unfold numberOfText
  dsimp only
  rw [if_neg (hne hspaces), if_neg (hne (comma_skip_spaces (comma_js_atof js_strtod hspaces)))]

theorem numberOfPrimitive_comma (E : Engine Unit) (rt : Runtime Unit) {p : Ptr} {c : CString}
    (htext : E.JS_ToCString () (.ptr .string p) = ((), .value c false)) (hcomma : 0x2c ∈ c.bytes) :
    (E.numberOfPrimitive rt (.ptr .string p)).1 = some JS_NAN := by
  have hcstr : (E.toCString rt (.ptr .string p)).1 = some c := by
    refine (call_fst rt _ _).trans ?_
    change Reply.result (E.JS_ToCString () (.ptr .string p)).2 = some c
    rw [htext]
    rfl
  rw [numberOfPrimitive_string]
  split
  · next h =>
    rw [h] at hcstr
    cases hcstr
    rw [numberOfText_comma _ hcomma]
  · next h =>
    rw [h] at hcstr
    cases hcstr

end Comma

/-! ## Element-wise decoding -/

/-- A JS array: an object whose `length` is a number of 32 bits. The engine has no effects,
so no getter has any. -/
structure JSArray (E : Engine Unit) where
  p : Ptr
  length : UInt32
  length_eq : E.JS_GetPropertyStr () (.ptr .object p) "length" =
    ((), .value (JS_NewUint32 length) false)

namespace JSArray

variable {E : Engine Unit} (a : JSArray E) (rt : Runtime Unit)

def value : JSCValue := .ptr .object a.p

/-- `a[i]`. -/
def get (i : ℕ) : JSCValue := (E.getPropertyUint32 rt a.value (UInt32.ofNat i)).1

/-- `T(context, value: a[i])`. -/
def decoded (T : Conforming) (i : ℕ) : Option T.Carrier := (initValue E T rt (a.get rt i)).result

/-- What `JS_ToIndex` makes of the array object. -/
def index : Option ℕ := (E.toIndex rt a.value).1

/-- The array initialiser gives the decoded elements, in order and all of them, and it
gives something only if all of them decode. -/
def ElementWise (T : Conforming) : Prop :=
  ∀ l, (initValue E (.array T) rt a.value).result = some l ↔
    l.length = a.length.toNat ∧ ∀ i < a.length.toNat, a.decoded rt T i = l[i]?

theorem result_iff (T : Conforming) (l : List T.Carrier) :
    (initValue E (.array T) rt a.value).result = some l ↔
      ∃ size, a.index rt = some size ∧ size ≤ 2 ^ 32 ∧ l.length = size ∧
        ∀ i < size, a.decoded rt T i = l[i]? := by
  have hele : ∀ i, (elementAt E (initValue E T) a.value i rt).result = a.decoded rt T i :=
    fun i => initValue_result E T _ rt _
  simp only [← hele]
  exact array_result_iff (initValue_result E T) rt a.p l

/-- If all elements below `n` decode, they make a list. -/
theorem exists_list (T : Conforming) {n : ℕ} (h : ∀ i < n, a.decoded rt T i ≠ none) :
    ∃ l : List T.Carrier, l.length = n ∧ ∀ i < n, a.decoded rt T i = l[i]? := by
  induction n with
  | zero => exact ⟨[], rfl, fun i hi => absurd hi (Nat.not_lt_zero i)⟩
  | succ n ih =>
    obtain ⟨l, hlen, hall⟩ := ih (fun i hi => h i (Nat.lt_succ_of_lt hi))
    obtain ⟨x, hx⟩ := Option.ne_none_iff_exists'.mp (h n (Nat.lt_succ_self n))
    refine ⟨l ++ [x], by rw [List.length_append, hlen]; rfl, fun i hi => ?_⟩
    rcases Nat.lt_succ_iff_lt_or_eq.mp hi with hlt | rfl
    · rw [List.getElem?_append_left (hlen ▸ hlt)]
      exact hall i hlt
    · rw [hx, ← hlen, List.getElem?_concat_length]

/-- No list has an element for one that does not decode. -/
theorem not_list (T : Conforming) {n i : ℕ} (hi : i < n) (hnone : a.decoded rt T i = none)
    (l : List T.Carrier) : ¬ (l.length = n ∧ ∀ i < n, a.decoded rt T i = l[i]?) := by
  rintro ⟨hlen, hall⟩
  have h := hall i hi
  rw [hnone, List.getElem?_eq_getElem (hlen ▸ hi)] at h
  cases h

/-- An array whose string has a comma decodes to the empty list, whatever is in it. -/
theorem result_of_comma (T : Conforming) {p : Ptr} {c : CString}
    (hprim : E.JS_ToPrimitive () a.value = ((), .value (.ptr .string p) false))
    (htext : E.JS_ToCString () (.ptr .string p) = ((), .value c false)) (hcomma : 0x2c ∈ c.bytes) :
    (initValue E (.array T) rt a.value).result = some [] := by
  have hnan : (E.numberOfPrimitive rt (.ptr .string p)).1 = some JS_NAN :=
    numberOfPrimitive_comma E rt htext hcomma
  have hnum : (E.toNumber rt a.value).1 = some JS_NAN := by
    refine (toNumber_object_fst E rt rt a.p).trans ?_
    change (Reply.result (E.JS_ToPrimitive () a.value).2).bind _ = some JS_NAN
    rw [hprim]
    exact hnan
  have hindex : a.index rt = some 0 := toIndex_of_nan E rt hnum
  refine (a.result_iff rt T []).mpr ⟨0, hindex, Nat.zero_le _, rfl, ?_⟩
  intro i hi
  exact absurd hi (Nat.not_lt_zero i)

end JSArray

/-- **Array decoding is element-wise** exactly for the arrays that the engine converts to
their own length, and for those with an element that does not decode where the loop comes
upon one too, or the conversion fails. -/
theorem elementWise_iff (E : Engine Unit) (T : Conforming) (a : JSArray E) (rt : Runtime Unit) :
    a.ElementWise rt T ↔ a.index rt = some a.length.toNat ∨
      ((∃ i < a.length.toNat, a.decoded rt T i = none) ∧
        ∀ size, a.index rt = some size → size ≤ 2 ^ 32 → ∃ i < size, a.decoded rt T i = none) := by
  have hlength : a.length.toNat ≤ 2 ^ 32 := (UInt32.toNat_lt a.length).le
  constructor
  · intro h
    by_cases hall : ∀ i < a.length.toNat, a.decoded rt T i ≠ none
    · left
      obtain ⟨l, hlen, hl⟩ := a.exists_list rt T hall
      obtain ⟨size, hsize, -, hlen', -⟩ := (a.result_iff rt T l).mp ((h l).mpr ⟨hlen, hl⟩)
      rw [hsize, ← hlen', hlen]
    · right
      push Not at hall
      refine ⟨hall, fun size hsize hle => ?_⟩
      by_contra hnone
      push Not at hnone
      obtain ⟨i, hi, hi'⟩ := hall
      obtain ⟨l, hlen, hl⟩ := a.exists_list rt T hnone
      -- The loop runs through, so there is a list; but `a[i]` is not in it.
      have hresult := (a.result_iff rt T l).mpr ⟨size, hsize, hle, hlen, hl⟩
      exact a.not_list rt T hi hi' l ((h l).mp hresult)
  · rintro (hindex | ⟨⟨i, hi, hnone⟩, hloop⟩) l
    · rw [a.result_iff, hindex]
      constructor
      · rintro ⟨size, ⟨⟩, -, hlen, hl⟩
        exact ⟨hlen, hl⟩
      · rintro ⟨hlen, hl⟩
        exact ⟨_, rfl, hlength, hlen, hl⟩
    · refine iff_of_false ?_ (a.not_list rt T hi hnone l)
      rw [a.result_iff]
      rintro ⟨size, hsize, hle, hlen⟩
      obtain ⟨j, hj, hj'⟩ := hloop size hsize hle
      exact a.not_list rt T hj hj' l hlen

/-- The array `[1, 2]`, at address 1; as a string, at address 3, it is `1,2`. -/
def oneTwo : Engine Unit :=
  { oneElement (.int 1) with
    JS_ToCString := fun w _ => (w, .value ⟨3, [0x31, 0x2c, 0x32]⟩ false)
    JS_GetPropertyStr := fun w _ _ => (w, .value (.int 2) false)
    JS_GetPropertyUint32 := fun w _ idx =>
      (w, .value (if idx = 0 then .int 1 else if idx = 1 then .int 2 else .undefined) false) }

/-- Decoding `[1, 2]` as `[Int32]` gives `[]`. -/
theorem oneTwo_not_elementWise :
    ¬ JSArray.ElementWise (⟨1, 2, rfl⟩ : JSArray oneTwo) quietRuntime (.int .int32) := by
  intro h
  have hlen := ((h []).mp rfl).1
  exact absurd hlen (by decide)

end QuickJSSwift.Decode
