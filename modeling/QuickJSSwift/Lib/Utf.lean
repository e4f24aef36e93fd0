/-
UTF-8 and UTF-16 over lists of Unicode scalars.

A text is a `List Char`: Lean's `Char` is exactly a Unicode scalar value. Encoding
to UTF-8 is Lean's own `String.utf8EncodeChar`; what this file adds is

* zero-terminated reading (`takeWhile_utf8`): cutting the bytes at the first zero
  byte cuts the text at its first U+0000;
* `decode`, a decoder that never fails: an ill-formed sequence becomes U+FFFD, one
  for each maximal subpart. `decode_utf8` says it inverts the encoding;
* UTF-16 code units, and `WellPaired`, the unit lists without an unpaired
  surrogate: exactly the encodings of texts (`wellPaired_iff`).
-/
import Mathlib.Tactic.Common
import Mathlib.Data.List.TakeWhile

set_option autoImplicit false

namespace Utf

/-! ## UTF-8 -/

/-- The UTF-8 bytes of a text. -/
def utf8 (t : List Char) : List UInt8 := t.flatMap String.utf8EncodeChar

@[simp] theorem utf8_nil : utf8 [] = [] := rfl

@[simp] theorem utf8_cons (c : Char) (t : List Char) :
    utf8 (c :: t) = String.utf8EncodeChar c ++ utf8 t := rfl

/-- A scalar is outside the surrogate range and below the end of Unicode. -/
theorem char_range (c : Char) : c.toNat < 0xd800 ∨ (0xdfff < c.toNat ∧ c.toNat < 0x110000) :=
  c.valid

theorem utf8EncodeChar_one {c : Char} (h : c.toNat < 0x80) :
    String.utf8EncodeChar c = [UInt8.ofNat c.toNat] := by
  have hle : c.val.toNat ≤ 0x7f := Nat.lt_succ_iff.mp h
  rw [String.utf8EncodeChar, if_pos hle]
  rfl

theorem utf8EncodeChar_two {c : Char} (hlo : 0x80 ≤ c.toNat) (hhi : c.toNat < 0x800) :
    String.utf8EncodeChar c
      = [UInt8.ofNat (c.toNat / 64 + 0xc0), UInt8.ofNat (c.toNat % 64 + 0x80)] := by
  have h1 : ¬ c.toNat ≤ 0x7f := by omega
  have h2 : c.toNat ≤ 0x7ff := by omega
  rw [String.utf8EncodeChar, show c.val.toNat = c.toNat from rfl, if_neg h1, if_pos h2,
    Nat.mod_eq_of_lt (show c.toNat / 64 < 0x20 by omega)]

theorem utf8EncodeChar_three {c : Char} (hlo : 0x800 ≤ c.toNat) (hhi : c.toNat < 0x10000) :
    String.utf8EncodeChar c
      = [UInt8.ofNat (c.toNat / 4096 + 0xe0), UInt8.ofNat (c.toNat / 64 % 64 + 0x80),
        UInt8.ofNat (c.toNat % 64 + 0x80)] := by
  have h1 : ¬ c.toNat ≤ 0x7f := by omega
  have h2 : ¬ c.toNat ≤ 0x7ff := by omega
  have h3 : c.toNat ≤ 0xffff := by omega
  rw [String.utf8EncodeChar, show c.val.toNat = c.toNat from rfl, if_neg h1, if_neg h2, if_pos h3,
    Nat.mod_eq_of_lt (show c.toNat / 4096 < 0x10 by omega)]

theorem utf8EncodeChar_four {c : Char} (hlo : 0x10000 ≤ c.toNat) :
    String.utf8EncodeChar c
      = [UInt8.ofNat (c.toNat / 262144 + 0xf0), UInt8.ofNat (c.toNat / 4096 % 64 + 0x80),
        UInt8.ofNat (c.toNat / 64 % 64 + 0x80), UInt8.ofNat (c.toNat % 64 + 0x80)] := by
  have hrange := char_range c
  have h1 : ¬ c.toNat ≤ 0x7f := by omega
  have h2 : ¬ c.toNat ≤ 0x7ff := by omega
  have h3 : ¬ c.toNat ≤ 0xffff := by omega
  rw [String.utf8EncodeChar, show c.val.toNat = c.toNat from rfl, if_neg h1, if_neg h2, if_neg h3,
    Nat.mod_eq_of_lt (show c.toNat / 262144 < 0x08 by omega)]

/-- Only U+0000 has a zero byte. -/
theorem ne_zero_of_mem_utf8EncodeChar {c : Char} (hc : c ≠ '\x00') {b : UInt8}
    (hb : b ∈ String.utf8EncodeChar c) : b ≠ 0 := by
  have hpos : 0 < c.val.toNat := by
    rcases Nat.eq_zero_or_pos c.val.toNat with h | h
    · exact absurd (Char.ext (UInt32.toNat_inj.mp h)) hc
    · exact h
  have hvalid := c.valid
  simp only [UInt32.isValidChar, Nat.isValidChar] at hvalid
  rw [String.utf8EncodeChar] at hb
  rw [ne_eq, ← UInt8.toNat_inj]
  split_ifs at hb <;> simp only [List.mem_cons, List.not_mem_nil, or_false] at hb <;>
    rcases hb with rfl | rfl | rfl | rfl <;>
    simp only [UInt8.toNat_ofNat', UInt8.toNat_ofNat] <;> omega

/-- Cutting the bytes at the first zero cuts the text at its first U+0000. -/
theorem takeWhile_utf8 (t : List Char) :
    (utf8 t).takeWhile (· ≠ 0) = utf8 (t.takeWhile (· ≠ '\x00')) := by
  induction t with
  | nil => rfl
  | cons c t ih =>
    rw [utf8_cons]
    by_cases hc : c = '\x00'
    · subst hc
      rfl
    · rw [List.takeWhile_cons_of_pos (by simpa using hc), utf8_cons, ← ih]
      refine List.takeWhile_append_of_pos ?_
      intro b hb
      simpa using ne_zero_of_mem_utf8EncodeChar hc hb

/-- A continuation byte. -/
def isContinuation (b : UInt8) : Bool := 0x80 ≤ b && b < 0xc0

/-- The second bytes a three- or four-byte sequence may have after `b0`. -/
def isSecond (b0 b1 : UInt8) : Bool :=
  if b0 = 0xe0 then 0xa0 ≤ b1 && b1 < 0xc0
  else if b0 = 0xed then 0x80 ≤ b1 && b1 < 0xa0
  else if b0 = 0xf0 then 0x90 ≤ b1 && b1 < 0xc0
  else if b0 = 0xf4 then 0x80 ≤ b1 && b1 < 0x90
  else isContinuation b1

/-- How many bytes one replacement character stands for when no well-formed
sequence starts here: the longest initial part of a well-formed sequence, and one
byte at least. -/
def maximalSubpart : List UInt8 → ℕ
  | b0 :: b1 :: b2 :: _ =>
    if 0xf0 ≤ b0 && b0 ≤ 0xf4 && isSecond b0 b1 then
      if isContinuation b2 then 3 else 2
    else if 0xe0 ≤ b0 && b0 < 0xf0 && isSecond b0 b1 then 2
    else 1
  | [b0, b1] => if 0xe0 ≤ b0 && b0 ≤ 0xf4 && isSecond b0 b1 then 2 else 1
  | _ => 1

theorem maximalSubpart_pos (l : List UInt8) : 0 < maximalSubpart l := by
  unfold maximalSubpart
  split
  · split_ifs <;> omega
  · split_ifs <;> omega
  · omega

/-- The scalar whose encoding starts here, if the bytes are well-formed. -/
def firstScalar (l : List UInt8) : Option Char := l.toByteArray.utf8DecodeChar? 0

/-- Decoding with repair: every byte sequence is read as some text. -/
def decode (l : List UInt8) : List Char :=
  if _h : l = [] then []
  else
    match firstScalar l with
    | some c => c :: decode (l.drop c.utf8Size)
    | none => '\ufffd' :: decode (l.drop (maximalSubpart l))
termination_by l.length
decreasing_by
  · have := List.length_pos_iff.mpr _h
    have := c.utf8Size_pos
    rw [List.length_drop]; omega
  · have := List.length_pos_iff.mpr _h
    have := maximalSubpart_pos l
    rw [List.length_drop]; omega

theorem firstScalar_utf8_cons (c : Char) (l : List UInt8) :
    firstScalar (String.utf8EncodeChar c ++ l) = some c := by
  rw [firstScalar, List.toByteArray_append]
  exact ByteArray.utf8DecodeChar?_utf8EncodeChar_append

/-- Decoding inverts encoding. -/
theorem decode_utf8 (t : List Char) : decode (utf8 t) = t := by
  induction t with
  | nil => rw [utf8_nil, decode, dif_pos rfl]
  | cons c t ih =>
    have hne : String.utf8EncodeChar c ++ utf8 t ≠ [] := by
      intro h
      exact String.utf8EncodeChar_ne_nil (List.append_eq_nil_iff.mp h).1
    rw [utf8_cons, decode, dif_neg hne, firstScalar_utf8_cons]
    dsimp only
    rw [← String.length_utf8EncodeChar, List.drop_left, ih]

/-! ## UTF-16 -/

/-- The first half of a surrogate pair. -/
def isHigh (u : UInt16) : Bool := 0xd800 ≤ u && u < 0xdc00

/-- The second half of a surrogate pair. -/
def isLow (u : UInt16) : Bool := 0xdc00 ≤ u && u < 0xe000

/-- The code units of one scalar. -/
def units (c : Char) : List UInt16 :=
  if c.toNat < 0x10000 then [UInt16.ofNat c.toNat]
  else [UInt16.ofNat ((c.toNat - 0x10000) / 1024 + 0xd800),
    UInt16.ofNat ((c.toNat - 0x10000) % 1024 + 0xdc00)]

/-- The code units of a text. -/
def utf16 (t : List Char) : List UInt16 := t.flatMap units

@[simp] theorem utf16_nil : utf16 [] = [] := rfl

@[simp] theorem utf16_cons (c : Char) (t : List Char) : utf16 (c :: t) = units c ++ utf16 t := rfl

/-- Every surrogate is half of a pair. -/
def WellPaired : List UInt16 → Prop
  | [] => True
  | [u] => isHigh u = false ∧ isLow u = false
  | u :: v :: rest =>
    if isHigh u then isLow v = true ∧ WellPaired rest
    else isLow u = false ∧ WellPaired (v :: rest)

instance : (l : List UInt16) → Decidable (WellPaired l)
  | [] => inferInstanceAs (Decidable True)
  | [u] => inferInstanceAs (Decidable (isHigh u = false ∧ isLow u = false))
  | u :: v :: rest =>
    have : Decidable (WellPaired rest) := instDecidableWellPaired rest
    have : Decidable (WellPaired (v :: rest)) := instDecidableWellPaired (v :: rest)
    if h : isHigh u = true then
      decidable_of_iff (isLow v = true ∧ WellPaired rest) (by rw [WellPaired, if_pos h])
    else
      decidable_of_iff (isLow u = false ∧ WellPaired (v :: rest)) (by rw [WellPaired, if_neg h])

theorem isHigh_iff (u : UInt16) : isHigh u = true ↔ 0xd800 ≤ u.toNat ∧ u.toNat < 0xdc00 := by
  simp [isHigh, UInt16.le_iff_toNat_le, UInt16.lt_iff_toNat_lt]

theorem isLow_iff (u : UInt16) : isLow u = true ↔ 0xdc00 ≤ u.toNat ∧ u.toNat < 0xe000 := by
  simp [isLow, UInt16.le_iff_toNat_le, UInt16.lt_iff_toNat_lt]

theorem toNat_charOfNat {n : ℕ} (h : n < 0xd800 ∨ (0xdfff < n ∧ n < 0x110000)) :
    (Char.ofNat n).toNat = n := by
  rw [Char.ofNat, dif_pos h]
  rfl

/-- A scalar of the basic plane is one unit, no surrogate. -/
theorem units_of_lt {c : Char} (h : c.toNat < 0x10000) :
    ∃ u : UInt16, units c = [u] ∧ u.toNat = c.toNat ∧ isHigh u = false ∧ isLow u = false := by
  have hnat : (UInt16.ofNat c.toNat).toNat = c.toNat := by
    rw [UInt16.toNat_ofNat']
    omega
  refine ⟨UInt16.ofNat c.toNat, by rw [units, if_pos h], hnat, ?_, ?_⟩
  · rw [Bool.eq_false_iff, ne_eq, isHigh_iff, hnat]
    have := char_range c
    omega
  · rw [Bool.eq_false_iff, ne_eq, isLow_iff, hnat]
    have := char_range c
    omega

/-- Any other scalar is a surrogate pair. -/
theorem units_of_ge {c : Char} (h : 0x10000 ≤ c.toNat) :
    ∃ u v : UInt16, units c = [u, v] ∧ isHigh u = true ∧ isLow v = true ∧
      c.toNat = (u.toNat - 0xd800) * 1024 + (v.toNat - 0xdc00) + 0x10000 := by
  have hlt : c.toNat < 0x110000 := by
    have := char_range c
    omega
  have hu : (UInt16.ofNat ((c.toNat - 0x10000) / 1024 + 0xd800)).toNat
      = (c.toNat - 0x10000) / 1024 + 0xd800 := by
    rw [UInt16.toNat_ofNat']
    omega
  have hv : (UInt16.ofNat ((c.toNat - 0x10000) % 1024 + 0xdc00)).toNat
      = (c.toNat - 0x10000) % 1024 + 0xdc00 := by
    rw [UInt16.toNat_ofNat']
    omega
  refine ⟨_, _, by rw [units, if_neg (by omega)], ?_, ?_, ?_⟩
  · rw [isHigh_iff, hu]; omega
  · rw [isLow_iff, hv]; omega
  · rw [hu, hv]; omega

/-- A unit that is no surrogate is a scalar. -/
theorem exists_units_single {u : UInt16} (hh : isHigh u = false) (hl : isLow u = false) :
    ∃ c : Char, units c = [u] := by
  rw [Bool.eq_false_iff, ne_eq, isHigh_iff] at hh
  rw [Bool.eq_false_iff, ne_eq, isLow_iff] at hl
  have hlt := u.toNat_lt
  have hnat : (Char.ofNat u.toNat).toNat = u.toNat := toNat_charOfNat (by omega)
  refine ⟨Char.ofNat u.toNat, ?_⟩
  rw [units, hnat, if_pos (by omega), UInt16.ofNat_toNat]

/-- A surrogate pair is a scalar. -/
theorem exists_units_pair {u v : UInt16} (hu : isHigh u = true) (hv : isLow v = true) :
    ∃ c : Char, units c = [u, v] := by
  rw [isHigh_iff] at hu
  rw [isLow_iff] at hv
  have hnat := toNat_charOfNat
    (n := (u.toNat - 0xd800) * 1024 + (v.toNat - 0xdc00) + 0x10000) (by omega)
  refine ⟨Char.ofNat ((u.toNat - 0xd800) * 1024 + (v.toNat - 0xdc00) + 0x10000), ?_⟩
  have hfst : UInt16.ofNat (((u.toNat - 0xd800) * 1024 + (v.toNat - 0xdc00) + 0x10000 - 0x10000)
      / 1024 + 0xd800) = u := by
    rw [← UInt16.toNat_inj, UInt16.toNat_ofNat']; omega
  have hsnd : UInt16.ofNat (((u.toNat - 0xd800) * 1024 + (v.toNat - 0xdc00) + 0x10000 - 0x10000)
      % 1024 + 0xdc00) = v := by
    rw [← UInt16.toNat_inj, UInt16.toNat_ofNat']; omega
  rw [units, hnat, if_neg (by omega), hfst, hsnd]

/-- Prefixing a scalar's units keeps the pairing. -/
theorem wellPaired_units_append (c : Char) {l : List UInt16} (hl : WellPaired l) :
    WellPaired (units c ++ l) := by
  rcases Nat.lt_or_ge c.toNat 0x10000 with h | h
  · obtain ⟨u, hu, -, hhigh, hlow⟩ := units_of_lt h
    rw [hu]
    cases l with
    | nil => exact ⟨hhigh, hlow⟩
    | cons v rest =>
      rw [List.singleton_append, WellPaired, if_neg (by simp [hhigh])]
      exact ⟨hlow, hl⟩
  · obtain ⟨u, v, huv, hhigh, hlow, -⟩ := units_of_ge h
    rw [huv, List.cons_append, List.singleton_append, WellPaired, if_pos hhigh]
    exact ⟨hlow, hl⟩

/-- **The unit lists without an unpaired surrogate are the encodings of texts.** -/
theorem wellPaired_iff (l : List UInt16) : WellPaired l ↔ ∃ t, utf16 t = l := by
  constructor
  · intro h
    induction l using WellPaired.induct with
    | case1 => exact ⟨[], rfl⟩
    | case2 u =>
      obtain ⟨c, hc⟩ := exists_units_single h.1 h.2
      exact ⟨[c], by rw [utf16_cons, hc]; rfl⟩
    | case3 u v rest hhigh ih =>
      rw [WellPaired, if_pos hhigh] at h
      obtain ⟨c, hc⟩ := exists_units_pair hhigh h.1
      obtain ⟨t, ht⟩ := ih h.2
      exact ⟨c :: t, by rw [utf16_cons, hc, ht]; rfl⟩
    | case4 u v rest hhigh ih =>
      rw [WellPaired, if_neg hhigh] at h
      obtain ⟨c, hc⟩ := exists_units_single (Bool.eq_false_iff.mpr hhigh) h.1
      obtain ⟨t, ht⟩ := ih h.2
      exact ⟨c :: t, by rw [utf16_cons, hc, ht]; rfl⟩
  · rintro ⟨t, rfl⟩
    induction t with
    | nil => trivial
    | cons c t ih =>
      rw [utf16_cons]
      exact wellPaired_units_append c ih

/-- A zero unit is U+0000. -/
theorem zero_mem_utf16_iff (t : List Char) : 0 ∈ utf16 t ↔ '\x00' ∈ t := by
  have hchar : ∀ c : Char, 0 ∈ units c ↔ '\x00' = c := by
    intro c
    rcases Nat.lt_or_ge c.toNat 0x10000 with h | h
    · obtain ⟨u, hu, hval, -, -⟩ := units_of_lt h
      rw [hu, List.mem_singleton, ← UInt16.toNat_inj, hval, ← Char.toNat_inj]
      exact Iff.rfl
    · obtain ⟨u, v, huv, hhigh, hlow, -⟩ := units_of_ge h
      rw [isHigh_iff] at hhigh
      rw [isLow_iff] at hlow
      refine iff_of_false ?_ ?_
      · rw [huv]
        simp only [List.mem_cons, List.not_mem_nil, or_false, not_or]
        exact ⟨fun h0 => by rw [← h0] at hhigh; exact absurd hhigh.1 (by decide),
          fun h0 => by rw [← h0] at hlow; exact absurd hlow.1 (by decide)⟩
      · rintro rfl
        exact absurd h (by decide)
  rw [utf16, List.mem_flatMap]
  constructor
  · rintro ⟨c, hc, h0⟩
    rwa [(hchar c).mp h0]
  · intro h
    exact ⟨_, h, (hchar _).mpr rfl⟩

/-- Two texts with the same code units are the same text. -/
theorem utf16_injective : Function.Injective utf16 := by
  have hne : ∀ c : Char, units c ≠ [] := by
    intro c
    rw [units]
    split_ifs <;> simp
  intro t
  induction t with
  | nil =>
    intro t' h
    cases t' with
    | nil => rfl
    | cons c' t' =>
      rw [utf16_nil, utf16_cons] at h
      exact absurd (List.append_eq_nil_iff.mp h.symm).1 (hne c')
  | cons c t ih =>
    intro t' h
    cases t' with
    | nil =>
      rw [utf16_nil, utf16_cons] at h
      exact absurd (List.append_eq_nil_iff.mp h).1 (hne c)
    | cons c' t' =>
      rw [utf16_cons, utf16_cons] at h
      -- The first unit tells a pair from a single unit.
      rcases Nat.lt_or_ge c.toNat 0x10000 with hc | hc <;>
        rcases Nat.lt_or_ge c'.toNat 0x10000 with hc' | hc'
      · obtain ⟨u, hu, hval, -, -⟩ := units_of_lt hc
        obtain ⟨u', hu', hval', -, -⟩ := units_of_lt hc'
        rw [hu, hu'] at h
        simp only [List.singleton_append, List.cons.injEq] at h
        have hcc : c = c' := Char.toNat_inj.mp (by rw [← hval, ← hval', h.1])
        rw [hcc, ih h.2]
      · obtain ⟨u, hu, -, hhigh, -⟩ := units_of_lt hc
        obtain ⟨u', v', huv', hhigh', -, -⟩ := units_of_ge hc'
        rw [hu, huv'] at h
        simp only [List.cons_append, List.cons.injEq] at h
        rw [h.1, hhigh'] at hhigh
        exact absurd hhigh (by decide)
      · obtain ⟨u, v, huv, hhigh, -, -⟩ := units_of_ge hc
        obtain ⟨u', hu', -, hhigh', -⟩ := units_of_lt hc'
        rw [huv, hu'] at h
        simp only [List.cons_append, List.cons.injEq] at h
        rw [← h.1, hhigh] at hhigh'
        exact absurd hhigh' (by decide)
      · obtain ⟨u, v, huv, -, -, hval⟩ := units_of_ge hc
        obtain ⟨u', v', huv', -, -, hval'⟩ := units_of_ge hc'
        rw [huv, huv'] at h
        simp only [List.cons_append, List.nil_append, List.cons.injEq] at h
        have hcc : c = c' := Char.toNat_inj.mp (by rw [hval, hval', h.1, h.2.1])
        rw [hcc, ih h.2.2]

end Utf
