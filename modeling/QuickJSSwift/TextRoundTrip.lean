/-
The string conversions, both ways: what a Swift string is after a trip through the
engine and what a JS string is after a trip through Swift.

`Text` has the encoding half. Here a stored string is read back (`JS_ToCString_text`),
the two trips are put together (`string_encode_decode`), and the limits they are stated
under are shown to be exact (`roundTrip_eq_some_iff`).
-/
import QuickJSSwift.Text

set_option autoImplicit false

namespace QuickJSSwift.Text

open Utf

/-! ## Reading a string back

A narrow string is the text of its bytes; a wide string is the text its units pair up
to, if they do. -/

/-- The scalar of a Latin-1 byte. -/
def latin1 (b : UInt8) : Char := Char.ofNat b.toNat

theorem latin1_toNat (b : UInt8) : (latin1 b).toNat = b.toNat := by
  have hlt := b.toNat_lt
  exact toNat_charOfNat (by omega)

theorem units_latin1 (b : UInt8) : Utf.units (latin1 b) = [b.toUInt16] := by
  have hlt := b.toNat_lt
  rw [Utf.units, latin1_toNat, if_pos (by omega)]
  congr 1
  rw [← UInt16.toNat_inj, UInt16.toNat_ofNat', UInt8.toNat_toUInt16]
  omega

theorem utf16_latin1 (src : List UInt8) : utf16 (src.map latin1) = src.map UInt8.toUInt16 := by
  induction src with
  | nil => rfl
  | cons b src ih => rw [List.map_cons, utf16_cons, units_latin1, ih]; rfl

theorem narrowUtf8_eq (b : UInt8) : narrowUtf8 b = String.utf8EncodeChar (latin1 b) := by
  have hlt := b.toNat_lt
  rw [← unicode_to_utf8_char, latin1_toNat, narrowUtf8, unicode_to_utf8]
  by_cases h : b < 0x80
  · have h' : b.toNat < 0x80 := UInt8.lt_iff_toNat_lt.mp h
    rw [if_pos h, if_pos h', UInt8.ofNat_toNat]
  · have h' : ¬ b.toNat < 0x80 := fun hlt => h (UInt8.lt_iff_toNat_lt.mpr hlt)
    rw [if_neg h, if_neg h', if_pos (by omega)]

theorem flatMap_narrowUtf8 (src : List UInt8) : src.flatMap narrowUtf8 = utf8 (src.map latin1) := by
  induction src with
  | nil => rfl
  | cons b src ih => rw [List.flatMap_cons, ih, narrowUtf8_eq]; rfl

/-- A unit that starts no pair is encoded alone. -/
theorem wideUtf8_single {u : UInt16} (hu : isHigh u = false) (l : List UInt16) :
    wideUtf8 (u :: l) = unicode_to_utf8 u.toNat ++ wideUtf8 l := by
  have hascii : u < 0x80 → [UInt8.ofNat u.toNat] = unicode_to_utf8 u.toNat := by
    intro h
    have h' : u.toNat < 0x80 := UInt16.lt_iff_toNat_lt.mp h
    rw [unicode_to_utf8, if_pos h']
  cases l with
  | nil =>
    rw [wideUtf8, wideUtf8, List.append_nil]
    split_ifs with h
    · exact hascii h
    · rfl
  | cons v rest =>
    rw [wideUtf8]
    split_ifs with h hpair
    · rw [← hascii h]
      rfl
    · have : isHigh u = true := by simp [isHigh, hpair.1, hpair.2.1]
      rw [hu] at this
      exact absurd this Bool.false_ne_true
    · rfl

/-- A pair is encoded as its scalar. -/
theorem wideUtf8_pair {c : Char} {u v : UInt16} (hu : isHigh u = true) (hv : isLow v = true)
    (hval : c.toNat = (u.toNat - 0xd800) * 1024 + (v.toNat - 0xdc00) + 0x10000) (l : List UInt16) :
    wideUtf8 (u :: v :: l) = String.utf8EncodeChar c ++ wideUtf8 l := by
  have hu' := (isHigh_iff u).mp hu
  have hv' := (isLow_iff v).mp hv
  have hascii : ¬ u < 0x80 := by
    rw [UInt16.lt_iff_toNat_lt]
    simp only [UInt16.reduceToNat]
    omega
  have hpair : 0xd800 ≤ u ∧ u < 0xdc00 ∧ 0xdc00 ≤ v ∧ v < 0xe000 := by
    simp only [isHigh, isLow, Bool.and_eq_true, decide_eq_true_eq] at hu hv
    exact ⟨hu.1, hu.2, hv.1, hv.2⟩
  have hmask : ∀ n : ℕ, n &&& 0x3ff = n % 2 ^ 10 := fun n => Nat.and_two_pow_sub_one_eq_mod n 10
  have hjoin := Nat.two_pow_add_eq_or_of_lt (i := 10) (b := v.toNat % 2 ^ 10)
    (Nat.mod_lt _ (by norm_num)) (u.toNat % 2 ^ 10)
  have hcode : (((u.toNat &&& 0x3ff) <<< 10) ||| (v.toNat &&& 0x3ff)) + 0x10000 = c.toNat := by
    rw [hmask, hmask, Nat.shiftLeft_eq, Nat.mul_comm, ← hjoin, hval]
    omega
  rw [wideUtf8, if_neg hascii, if_pos hpair, hcode, unicode_to_utf8_char]

/-- **The loop over 16-bit characters** turns the units of a text into its bytes. -/
theorem wideUtf8_utf16 (t : List Char) : wideUtf8 (utf16 t) = utf8 t := by
  induction t with
  | nil => rfl
  | cons c t ih =>
    rw [utf16_cons, utf8_cons]
    rcases Nat.lt_or_ge c.toNat 0x10000 with h | h
    · obtain ⟨u, hu, hval, hhigh, -⟩ := units_of_lt h
      rw [hu, List.singleton_append, wideUtf8_single hhigh, hval, unicode_to_utf8_char, ih]
    · obtain ⟨u, v, huv, hhigh, hlow, hval⟩ := units_of_ge h
      rw [huv, List.cons_append, List.singleton_append, wideUtf8_pair hhigh hlow hval, ih]

/-- `JS_ToCString` has room for the C string. -/
def Decodable : JSString → Prop
  | .str8 src => (∃ b ∈ src, 0x80 ≤ b) → src.length + src.countP (0x80 ≤ ·) < 2 ^ 31
  | .str16 src => 3 * src.length < 2 ^ 31

/-- A narrow string needs one byte for each character and one more for each character
above ASCII. -/
theorem length_flatMap_narrowUtf8 (src : List UInt8) :
    (src.flatMap narrowUtf8).length = src.length + src.countP (0x80 ≤ ·) := by
  induction src with
  | nil => rfl
  | cons b src ih =>
    rw [List.flatMap_cons, List.length_append, ih, List.length_cons, narrowUtf8]
    by_cases h : b < 0x80
    · rw [if_pos h, List.countP_cons_of_neg (by simpa using h), List.length_singleton]
      omega
    · rw [if_neg h, List.countP_cons_of_pos (by simpa using h), List.length_cons,
        List.length_singleton]
      omega

theorem JS_ToCString_narrow {src : List UInt8} (h : Decodable (.str8 src)) :
    JS_ToCString (.str8 src) = some (src.flatMap narrowUtf8) := by
  rw [JS_ToCString]
  split_ifs with hcount hneg
  · -- All ASCII: the string is handed out in place.
    rw [List.countP_eq_zero] at hcount
    congr 1
    induction src with
    | nil => rfl
    | cons b src ih =>
      have hb : b < 0x80 := by simpa using hcount b List.mem_cons_self
      rw [List.flatMap_cons, narrowUtf8, if_pos hb, List.singleton_append,
        ← ih (fun h' => absurd h' (by
          rintro ⟨d, hd, hge⟩
          exact hcount d (List.mem_cons_of_mem b hd) (by simpa using hge)))
          (fun d hd => hcount d (List.mem_cons_of_mem b hd))]
  · have hpos := List.countP_pos_iff.mp (Nat.pos_of_ne_zero hcount)
    have hlt := h (by simpa using hpos)
    rw [cInt_eq_self (by omega) (by omega)] at hneg
    omega
  · rfl

theorem JS_ToCString_wide {src : List UInt16} (h : Decodable (.str16 src)) :
    JS_ToCString (.str16 src) = some (wideUtf8 src) := by
  rw [Decodable] at h
  rw [JS_ToCString, if_neg]
  rw [cInt_eq_self (by omega) (by omega)]
  omega

/-- A decodable string has a C string. -/
theorem JS_ToCString_isSome {u : JSString} (h : Decodable u) : ∃ b, JS_ToCString u = some b := by
  cases u with
  | str8 src => exact ⟨_, JS_ToCString_narrow h⟩
  | str16 src => exact ⟨_, JS_ToCString_wide h⟩

/-- **`JS_ToCString` of a string that holds a text** gives the bytes of the text. -/
theorem JS_ToCString_text {u : JSString} {t : List Char} (hu : u.units = utf16 t)
    (h : Decodable u) : JS_ToCString u = some (utf8 t) := by
  cases u with
  | str8 src =>
    have ht : src.map latin1 = t := utf16_injective (by rw [utf16_latin1]; exact hu)
    rw [JS_ToCString_narrow h, flatMap_narrowUtf8, ht]
  | str16 src =>
    have hsrc : src = utf16 t := hu
    rw [JS_ToCString_wide h, hsrc, wideUtf8_utf16]

/-- `String(cString:)` stops at the first U+0000 of the text. -/
theorem initCString_utf8 (t : List Char) :
    String.initCString (utf8 t) = t.takeWhile (· ≠ '\x00') := by
  rw [String.initCString, cString, takeWhile_utf8, decode_utf8]

/-- `String.jsValue` stores what precedes the first U+0000. -/
theorem jsValue_eq {s : List Char} (hs : Encodable (s.takeWhile (· ≠ '\x00'))) :
    ∃ js, String.jsValue s = some js ∧ js.units = utf16 (s.takeWhile (· ≠ '\x00')) ∧
      (js.isWide = true → ∃ c ∈ s.takeWhile (· ≠ '\x00'), 0x100 ≤ c.toNat) := by
  rw [String.jsValue, JS_NewString, cString, takeWhile_utf8]
  exact JS_NewStringLen_utf8 hs

/-- A string that holds a storable text can be read back. -/
theorem decodable_of_storable {t : List Char} (ht : Storable t) {js : JSString}
    (hunits : js.units = utf16 t) (hwide : js.isWide = true → ∃ c ∈ t, 0x100 ≤ c.toNat) :
    Decodable js := by
  obtain ⟨⟨-, hlen, -⟩, hthree⟩ := ht
  cases js with
  | str16 src =>
    have hsrc : src = utf16 t := hunits
    rw [Decodable, hsrc]
    exact hthree (hwide rfl)
  | str8 src =>
    have ht : src.map latin1 = t := utf16_injective (by rw [utf16_latin1]; exact hunits)
    rintro ⟨b, hb, hge⟩
    rw [← length_flatMap_narrowUtf8, flatMap_narrowUtf8, ht]
    refine hlen ⟨latin1 b, by rw [← ht]; exact List.mem_map_of_mem hb, ?_⟩
    rw [latin1_toNat]
    exact UInt8.le_iff_toNat_le.mp hge

/-! ## The round trips -/

/-- From Swift to the engine and back: what precedes the first U+0000. -/
theorem roundTrip_eq {s : List Char} (hs : Storable (s.takeWhile (· ≠ '\x00'))) :
    String.roundTrip s = some (s.takeWhile (· ≠ '\x00')) := by
  obtain ⟨js, hjs, hunits, hwide⟩ := jsValue_eq hs.1
  have hread := JS_ToCString_text hunits (decodable_of_storable hs hunits hwide)
  rw [String.roundTrip, hjs, Option.bind_some, String.initValue, hread, Option.map_some,
    initCString_utf8, List.takeWhile_idem]

theorem takeWhile_ne_nul_eq_self (s : List Char) :
    s.takeWhile (· ≠ '\x00') = s ↔ '\x00' ∉ s := by
  rw [List.takeWhile_eq_self_iff]
  constructor
  · intro h hmem
    simpa using h _ hmem
  · intro h c hc
    have : c ≠ '\x00' := fun heq => h (heq ▸ hc)
    simpa using this

/-- From the engine to Swift and back: encoding what was decoded restores the units
exactly when they hold no zero and no unpaired surrogate. -/
theorem jsValue_initValue {u : JSString} {s : List Char} (hu : Decodable u)
    (hs : String.initValue u = some s) (henc : Encodable (s.takeWhile (· ≠ '\x00'))) :
    (String.jsValue s).map JSString.units = some u.units ↔ 0 ∉ u.units ∧ WellPaired u.units := by
  obtain ⟨js, hjs, hunits, -⟩ := jsValue_eq henc
  rw [hjs, Option.map_some, Option.some_inj, hunits]
  constructor
  · intro heq
    refine ⟨?_, (wellPaired_iff _).mpr ⟨_, heq⟩⟩
    rw [← heq, zero_mem_utf16_iff]
    intro hmem
    simpa using List.mem_takeWhile_imp hmem
  · rintro ⟨hzero, hpaired⟩
    obtain ⟨t, ht⟩ := (wellPaired_iff _).mp hpaired
    rw [← ht, zero_mem_utf16_iff] at hzero
    have hself : t.takeWhile (· ≠ '\x00') = t := (takeWhile_ne_nul_eq_self t).mpr hzero
    rw [String.initValue, JS_ToCString_text ht.symm hu, Option.map_some, initCString_utf8, hself,
      Option.some_inj] at hs
    rw [← hs, hself, ht]

/-- **The string conversions.** Within the lengths the engine accepts, encoding and
decoding cuts a Swift string at its first U+0000, and decoding and encoding restores
exactly the JS strings without a zero unit and without an unpaired surrogate. -/
theorem string_encode_decode :
    (∀ s : List Char, Storable (s.takeWhile (· ≠ '\x00')) →
      String.roundTrip s = some (s.takeWhile (· ≠ '\x00')) ∧
      (String.roundTrip s = some s ↔ '\x00' ∉ s)) ∧
    (∀ u : JSString, Decodable u → ∃ s, String.initValue u = some s ∧
      (Encodable (s.takeWhile (· ≠ '\x00')) →
        ((String.jsValue s).map JSString.units = some u.units ↔
          0 ∉ u.units ∧ WellPaired u.units))) := by
  constructor
  · intro s hs
    have hround := roundTrip_eq hs
    refine ⟨hround, ?_⟩
    rw [hround, Option.some_inj, takeWhile_ne_nul_eq_self]
  · intro u hu
    obtain ⟨b, hb⟩ := JS_ToCString_isSome hu
    have hs : String.initValue u = some (String.initCString b) := by
      rw [String.initValue, hb, Option.map_some]
    exact ⟨_, hs, jsValue_initValue hu hs⟩

theorem length_utf8_le (t : List Char) : (utf8 t).length ≤ 4 * t.length := by
  induction t with
  | nil => simp
  | cons c t ih =>
    rw [utf8_cons, List.length_append, String.length_utf8EncodeChar, List.length_cons]
    have := c.utf8Size_le_four
    omega

theorem length_utf16_le (t : List Char) : (utf16 t).length ≤ 2 * t.length := by
  induction t with
  | nil => simp
  | cons c t ih =>
    have hc : (Utf.units c).length ≤ 2 := by
      rw [Utf.units]
      split_ifs <;> simp
    rw [utf16_cons, List.length_append, List.length_cons]
    omega

/-- No text of fewer than `2 ^ 28` scalars is near the limits. -/
theorem storable_of_length_lt {t : List Char} (h : t.length < 2 ^ 28) : Storable t := by
  have hutf8 := length_utf8_le t
  have hutf16 := length_utf16_le t
  have hascii : (t.takeWhile (fun c => c.toNat < 0x80)).length ≤ t.length :=
    (List.takeWhile_prefix _).length_le
  refine ⟨⟨?_, fun _ => ?_, fun _ => ?_⟩, fun _ => ?_⟩
  · rw [JS_STRING_LEN_MAX]
    omega
  · omega
  · omega
  · omega

/-- A text that is cut: `é` and everything before the zero survive. -/
theorem string_encode_decode_cut :
    String.roundTrip ['a', 'é', '\x00', 'b'] = some ['a', 'é'] :=
  (string_encode_decode.1 ['a', 'é', '\x00', 'b'] (storable_of_length_lt (by decide))).1

/-- More ASCII characters than a string may have are refused. -/
theorem jsValue_replicate {c : Char} {n : ℕ} (hc : c.toNat < 0x80) (hnul : c ≠ '\x00')
    (hn : JS_STRING_LEN_MAX < n) : String.jsValue (List.replicate n c) = none := by
  have hascii : ∀ d ∈ List.replicate n c, d.toNat < 0x80 := by
    intro d hd
    rw [List.eq_of_mem_replicate hd]
    exact hc
  have hnuls : '\x00' ∉ List.replicate n c := fun h => hnul (List.eq_of_mem_replicate h).symm
  have hself : (List.replicate n c).takeWhile (fun c => c.toNat < 0x80) = List.replicate n c :=
    List.takeWhile_eq_self_iff.mpr (fun d hd => by simpa using hascii d hd)
  rw [String.jsValue, JS_NewString, cString, takeWhile_utf8,
    (takeWhile_ne_nul_eq_self _).mpr hnuls, JS_NewStringLen, takeWhile_ascii, hself]
  dsimp only
  rw [if_pos (by rw [List.length_map, List.length_replicate]; exact hn)]

/-- A text of `2 ^ 30` letters has no U+0000 and does not come back. -/
theorem string_too_long :
    '\x00' ∉ List.replicate (2 ^ 30) 'a' ∧ String.roundTrip (List.replicate (2 ^ 30) 'a') = none := by
  constructor
  · intro h
    exact absurd (List.eq_of_mem_replicate h) (by decide)
  · rw [String.roundTrip, jsValue_replicate (by decide) (by decide) (by decide), Option.bind_none]

/-! ## The limits are exact

Past the limits the conversions fail; they never hand out a string with other text in
it. The byte count is reduced to an `int` before the scan, so a text of more than four
gigabytes starts with a buffer that is too small and with a decoder that may believe
the input has ended: what the scan stores is then not the text. What it cannot do is
store fewer characters than the text has scalars without an error, and the buffer
cannot grow past what its first size and `JS_STRING_LEN_MAX` allow. -/

/-- A buffer in use whose first size was `n₀`. -/
structure StringBuffer.Bounded (n₀ : ℤ) (b : StringBuffer) : Prop where
  first : n₀ < 2 ^ 31
  ok : b.error_status = false
  len_le : (b.len : ℤ) ≤ b.size
  size : b.size = n₀ ∨ (n₀ ≤ JS_STRING_LEN_MAX ∧ b.size ≤ JS_STRING_LEN_MAX)
  wide : b.str.isWide = true → b.size < 2 ^ 30

theorem len_push (b : StringBuffer) (c : ℕ) : (b.push c).len = b.len + 1 := by
  obtain ⟨str, size, error⟩ := b
  cases str with
  | str8 u => simp [StringBuffer.push, StringBuffer.len, JSString.units]
  | str16 u => simp [StringBuffer.push, StringBuffer.len, JSString.units]

theorem isWide_push (b : StringBuffer) (c : ℕ) : (b.push c).str.isWide = b.str.isWide := by
  obtain ⟨str, size, error⟩ := b
  cases str <;> rfl

theorem size_push (b : StringBuffer) (c : ℕ) : (b.push c).size = b.size := by
  obtain ⟨str, size, error⟩ := b
  cases str <;> rfl

theorem ok_push (b : StringBuffer) (c : ℕ) : (b.push c).error_status = b.error_status := by
  obtain ⟨str, size, error⟩ := b
  cases str <;> rfl

theorem StringBuffer.Bounded.push {n₀ : ℤ} {b : StringBuffer} (hb : b.Bounded n₀)
    (hroom : (b.len : ℤ) < b.size) (c : ℕ) : (b.push c).Bounded n₀ where
  first := hb.first
  ok := by rw [ok_push]; exact hb.ok
  len_le := by rw [len_push, size_push]; push_cast; omega
  size := by rw [size_push]; exact hb.size
  wide := by rw [isWide_push, size_push]; exact hb.wide

/-- Making room fails or leaves the characters as they are. -/
theorem reserve_spec {n₀ : ℤ} {b : StringBuffer} (hb : b.Bounded n₀) (c : ℕ) :
    (b.reserve c).error_status = true ∨
      ((b.reserve c).Bounded n₀ ∧ (b.reserve c).len = b.len ∧
        ((b.reserve c).len : ℤ) < (b.reserve c).size ∧
        (b.str.isWide = true → (b.reserve c).str.isWide = true)) := by
  obtain ⟨hfirst, hok, hlen, hsize, hwide⟩ := hb
  by_cases hroom : b.size ≤ b.len
  swap
  · right
    rw [StringBuffer.reserve, if_neg hroom]
    exact ⟨⟨hfirst, hok, hlen, hsize, hwide⟩, rfl, by omega, fun h => h⟩
  rw [StringBuffer.reserve, if_pos hroom, string_buffer_realloc, if_neg (by simp [hok])]
  by_cases hmax : JS_STRING_LEN_MAX < b.len + 1
  · left
    rw [if_pos hmax]
    rfl
  right
  rw [if_neg hmax]
  -- The buffer is full, and one more character is still allowed.
  have hmax' : (JS_STRING_LEN_MAX : ℤ) < 2 ^ 30 := by decide
  have hnew : ((b.len : ℤ) + 1 ≤ min (max ((b.len + 1 : ℕ) : ℤ) (b.size * 3 / 2)) JS_STRING_LEN_MAX) := by
    push_cast
    omega
  have hle : min (max ((b.len + 1 : ℕ) : ℤ) (b.size * 3 / 2)) (JS_STRING_LEN_MAX : ℤ)
      ≤ JS_STRING_LEN_MAX := min_le_right _ _
  have hn₀ : n₀ ≤ JS_STRING_LEN_MAX := by omega
  dsimp only
  generalize min (max ((b.len + 1 : ℕ) : ℤ) (b.size * 3 / 2)) (JS_STRING_LEN_MAX : ℤ) = n at *
  obtain ⟨str, size, error⟩ := b
  cases str with
  | str16 u => exact ⟨⟨hfirst, hok, by dsimp only [StringBuffer.len] at *; omega, Or.inr ⟨hn₀, hle⟩,
      fun _ => by dsimp only; omega⟩, rfl, by dsimp only [StringBuffer.len] at *; omega, fun h => h⟩
  | str8 u =>
    dsimp only
    by_cases hc : 0x100 ≤ c
    · have hint : ¬ cInt (n * 2) < 0 := by
        rw [cInt_eq_self (by omega) (by omega)]
        omega
      obtain rfl : error = false := hok
      rw [if_pos hc, string_buffer_widen, if_neg Bool.false_ne_true, if_neg hint]
      exact ⟨⟨hfirst, rfl, by dsimp only [StringBuffer.len, JSString.units] at *; omega,
        Or.inr ⟨hn₀, hle⟩, fun _ => by dsimp only; omega⟩, rfl,
        by dsimp only [StringBuffer.len, JSString.units] at *; omega, fun _ => rfl⟩
    · rw [if_neg hc]
      exact ⟨⟨hfirst, hok, by dsimp only [StringBuffer.len] at *; omega, Or.inr ⟨hn₀, hle⟩,
        fun h => absurd h Bool.false_ne_true⟩, rfl, by dsimp only [StringBuffer.len] at *; omega,
        fun h => h⟩

/-- An outcome of storing: an error, or a bounded buffer with `k` more characters at
least, wide if `w` asks for it. -/
def Stored (n₀ : ℤ) (b r : StringBuffer) (k : ℕ) (w : Prop) : Prop :=
  r.error_status = true ∨
    (r.Bounded n₀ ∧ b.len + k ≤ r.len ∧ (b.str.isWide = true ∨ w → r.str.isWide = true))

theorem putc8_stored {n₀ : ℤ} {b : StringBuffer} (hb : b.Bounded n₀) (c : ℕ) :
    Stored n₀ b (string_buffer_putc8 b c) 1 False := by
  rw [string_buffer_putc8]
  rcases reserve_spec hb c with herr | ⟨hres, hlen, hroom, hwide⟩
  · rw [if_pos herr]
    exact Or.inl herr
  · rw [if_neg (by simp [hres.ok])]
    refine Or.inr ⟨hres.push hroom c, by rw [len_push, hlen], ?_⟩
    rintro (h | h)
    · rw [isWide_push]
      exact hwide h
    · exact h.elim

theorem putc16_stored {n₀ : ℤ} {b : StringBuffer} (hb : b.Bounded n₀) (c : ℕ) :
    Stored n₀ b (string_buffer_putc16 b c) 1 (0x100 ≤ c) := by
  rw [string_buffer_putc16]
  dsimp only
  rcases reserve_spec hb c with herr | ⟨hres, hlen, hroom, hwide⟩
  · rw [if_pos herr]
    exact Or.inl herr
  rw [if_neg (by simp [hres.ok])]
  generalize b.reserve c = r at *
  rw [Stored, ← hlen]
  obtain ⟨str, size, error⟩ := r
  obtain rfl : error = false := hres.ok
  cases str with
  | str16 u =>
    exact Or.inr ⟨hres.push hroom c, by rw [len_push], fun _ => by rw [isWide_push]; rfl⟩
  | str8 u =>
    dsimp only
    by_cases hc : c < 0x100
    · rw [if_pos hc]
      refine Or.inr ⟨hres.push hroom c, by rw [len_push], ?_⟩
      rintro (h | h)
      · rw [isWide_push]
        exact hwide h
      · omega
    rw [if_neg hc, string_buffer_widen, if_neg Bool.false_ne_true]
    by_cases hint : cInt (size * 2) < 0
    · rw [if_pos hint]
      exact Or.inl rfl
    · rw [if_neg hint, if_neg Bool.false_ne_true]
      -- Doubling the size did not overflow.
      have hsize : size < 2 ^ 30 := by
        have hfirst := hres.first
        have hmax : (JS_STRING_LEN_MAX : ℤ) < 2 ^ 30 := by decide
        have hlt := hres.size
        have hroom' := hroom
        dsimp only at hlt hroom'
        by_contra hge
        rw [cInt, Int.bmod_def] at hint
        split_ifs at hint <;> omega
      have hwider : StringBuffer.Bounded n₀ ⟨.str16 (JSString.str8 u).units, size, false⟩ :=
        ⟨hres.first, rfl, hres.len_le, hres.size, fun _ => hsize⟩
      exact Or.inr ⟨hwider.push hroom c, by rw [len_push]; rfl,
        fun _ => by rw [isWide_push]; rfl⟩

theorem reserve_error {b : StringBuffer} (hb : b.error_status = true) (c : ℕ) :
    (b.reserve c).error_status = true := by
  rw [StringBuffer.reserve]
  split_ifs
  · rw [string_buffer_realloc, if_pos hb]
    exact hb
  · exact hb

theorem putc16_error {b : StringBuffer} (hb : b.error_status = true) (c : ℕ) :
    (string_buffer_putc16 b c).error_status = true := by
  rw [string_buffer_putc16]
  dsimp only
  rw [if_pos (reserve_error hb c)]
  exact reserve_error hb c

theorem putc8_error {b : StringBuffer} (hb : b.error_status = true) (c : ℕ) :
    (string_buffer_putc8 b c).error_status = true := by
  rw [string_buffer_putc8, if_pos (reserve_error hb c)]
  exact reserve_error hb c

/-- A sequence is one byte that is no continuation, and continuations. -/
theorem utf8EncodeChar_shape (c : Char) :
    ∃ x p, String.utf8EncodeChar c = x :: p ∧ isTail x = false ∧ ∀ y ∈ p, isTail y = true := by
  have hrange := char_range c
  have hlead : ∀ n, n < 256 → n < 0x80 ∨ 0xc0 ≤ n → isTail (UInt8.ofNat n) = false := by
    intro n hn h
    simp only [isTail, Bool.and_eq_false_iff, decide_eq_false_iff_not, UInt8.le_iff_toNat_le,
      UInt8.lt_iff_toNat_lt, byte_toNat hn, UInt8.reduceToNat]
    omega
  have htail : ∀ n, isTail (UInt8.ofNat (n % 64 + 0x80)) = true := by
    intro n
    simp only [isTail, Bool.and_eq_true, decide_eq_true_eq, UInt8.le_iff_toNat_le,
      UInt8.lt_iff_toNat_lt, byte_toNat (show n % 64 + 0x80 < 256 by omega), UInt8.reduceToNat]
    omega
  have hall : ∀ l : List UInt8, l.all isTail = true → ∀ y ∈ l, isTail y = true :=
    fun l h => List.all_eq_true.mp h
  rcases Nat.lt_or_ge c.toNat 0x80 with h1 | h1
  · exact ⟨_, _, utf8EncodeChar_one h1, hlead _ (by omega) (by omega), hall _ rfl⟩
  rcases Nat.lt_or_ge c.toNat 0x800 with h2 | h2
  · exact ⟨_, _, utf8EncodeChar_two h1 h2, hlead _ (by omega) (by omega), hall _ (by simp only [List.all_cons, List.all_nil, htail, Bool.and_self])⟩
  rcases Nat.lt_or_ge c.toNat 0x10000 with h3 | h3
  · exact ⟨_, _, utf8EncodeChar_three h2 h3, hlead _ (by omega) (by omega), hall _ (by simp only [List.all_cons, List.all_nil, htail, Bool.and_self])⟩
  · exact ⟨_, _, utf8EncodeChar_four h3, hlead _ (by omega) (by omega), hall _ (by simp only [List.all_cons, List.all_nil, htail, Bool.and_self])⟩

theorem dropWhile_isTail_utf8 (t : List Char) : (utf8 t).dropWhile isTail = utf8 t := by
  cases t with
  | nil => rfl
  | cons c t =>
    obtain ⟨x, p, hxp, hx, -⟩ := utf8EncodeChar_shape c
    rw [utf8_cons, hxp, List.cons_append, List.dropWhile_cons_of_neg (by simp [hx])]

/-- A refused sequence is skipped as a whole. -/
theorem skipInvalid_utf8 (c : Char) (t : List Char) :
    skipInvalid (String.utf8EncodeChar c ++ utf8 t) = utf8 t := by
  obtain ⟨x, p, hxp, hx, hp⟩ := utf8EncodeChar_shape c
  rw [hxp, List.cons_append, skipInvalid, List.dropWhile_cons_of_neg (by simp [hx])]
  dsimp only
  rw [List.dropWhile_append_of_pos hp, dropWhile_isTail_utf8]

/-- The decoder refuses a sequence that is longer than the length it is given. -/
theorem unicode_from_utf8_short {c : Char} (hc : 0x80 ≤ c.toNat) (rest : List UInt8) {max_len : ℤ}
    (hlen : max_len < (String.utf8EncodeChar c).length) :
    unicode_from_utf8 (String.utf8EncodeChar c ++ rest) max_len = none := by
  have hrange := char_range c
  have hlead : ∀ (n l : ℕ) (p : List UInt8), n < 256 → 0x80 ≤ n → utf8_extra n = some l →
      max_len < l + 1 → unicode_from_utf8 (UInt8.ofNat n :: p) max_len = none := by
    intro n l p hn hlo hl hmax
    have hb : (UInt8.ofNat n).toNat = n := byte_toNat hn
    have hge : ¬ UInt8.ofNat n < 0x80 := by
      rw [UInt8.lt_iff_toNat_lt, hb]
      simp only [UInt8.reduceToNat]
      omega
    simp only [unicode_from_utf8]
    rw [if_neg hge, hb, hl]
    dsimp only
    rw [if_pos (by omega)]
  rcases Nat.lt_or_ge c.toNat 0x800 with h2 | h2
  · rw [utf8EncodeChar_two hc h2] at hlen ⊢
    exact hlead _ 1 _ (by omega) (by omega) (by rw [utf8_extra, if_pos (by omega)]) hlen
  rcases Nat.lt_or_ge c.toNat 0x10000 with h3 | h3
  · rw [utf8EncodeChar_three h2 h3] at hlen ⊢
    exact hlead _ 2 _ (by omega) (by omega)
      (by rw [utf8_extra, if_neg (by omega), if_pos (by omega)]) hlen
  · rw [utf8EncodeChar_four h3] at hlen ⊢
    exact hlead _ 3 _ (by omega) (by omega)
      (by rw [utf8_extra, if_neg (by omega), if_neg (by omega), if_pos (by omega)]) hlen

/-- What storing the units of a scalar, or the replacement character, does. -/
structure StoreStep (c : Char) (b r : StringBuffer) : Prop where
  error : b.error_status = true → r.error_status = true
  stored : ∀ n₀, b.Bounded n₀ → Stored n₀ b r 1 (0x100 ≤ c.toNat)

/-- One round of the scanning loop, whatever the decoder makes of the length. -/
theorem newStringLoop_step (c : Char) (t : List Char) (b : StringBuffer) :
    ∃ r, newStringLoop (String.utf8EncodeChar c ++ utf8 t) b = newStringLoop (utf8 t) r ∧
      StoreStep c b r := by
  rcases Nat.lt_or_ge c.toNat 0x80 with h1 | h1
  · have hb : (UInt8.ofNat c.toNat).toNat = c.toNat := byte_toNat (by omega)
    have hlt : UInt8.ofNat c.toNat < 128 := by
      rw [UInt8.lt_iff_toNat_lt, hb]
      exact h1
    refine ⟨string_buffer_putc8 b c.toNat, ?_, fun h => putc8_error h _, fun n₀ h => ?_⟩
    · rw [utf8EncodeChar_one h1, List.singleton_append, newStringLoop, if_pos hlt, hb]
    · rcases putc8_stored h c.toNat with herr | ⟨hbd, hlen, hwide⟩
      · exact Or.inl herr
      · exact Or.inr ⟨hbd, hlen, fun hw => hwide (hw.imp_right (by omega))⟩
  obtain ⟨x, p, hxp, hx⟩ := utf8EncodeChar_head h1 (utf8 t)
  by_cases hroom : ((String.utf8EncodeChar c).length : ℤ) ≤ cInt (x :: p).length
  · -- The sequence is decoded.
    have hdec := unicode_from_utf8_char h1 (utf8 t) hroom
    rw [hxp] at hdec ⊢
    rw [newStringLoop, if_neg hx]
    split
    · next c' p_next heq =>
      rw [hdec, Option.some_inj, Prod.mk.injEq] at heq
      obtain ⟨rfl, rfl⟩ := heq
      rcases Nat.lt_or_ge c.toNat 0x10000 with h3 | h3
      · rw [if_pos h3]
        exact ⟨_, rfl, fun h => putc16_error h _, fun n₀ h => putc16_stored h _⟩
      · have hrange := char_range c
        rw [if_neg (by omega), if_pos (by omega)]
        dsimp only
        refine ⟨_, rfl, fun h => putc16_error (putc16_error h _) _, fun n₀ h => ?_⟩
        rcases putc16_stored h (((c.toNat - 0x10000) >>> 10) + 0xd800) with herr | ⟨hbd, hlen, hwide⟩
        · exact Or.inl (putc16_error herr _)
        · rcases putc16_stored hbd ((c.toNat - 0x10000 &&& 0x3ff) + 0xdc00) with
            herr | ⟨hbd', hlen', hwide'⟩
          · exact Or.inl herr
          · exact Or.inr ⟨hbd', by omega, fun _ => hwide' (Or.inr (by omega))⟩
    · next heq => rw [hdec] at heq; exact absurd heq (by simp)
  · -- The sequence is refused and replaced.
    have hdec := unicode_from_utf8_short h1 (utf8 t) (not_le.mp hroom)
    have hskip := skipInvalid_utf8 c t
    rw [hxp] at hdec hskip ⊢
    rw [newStringLoop, if_neg hx]
    split
    · next heq => rw [hdec] at heq; exact absurd heq (by simp)
    · rw [hskip]
      refine ⟨_, rfl, fun h => putc16_error h _, fun n₀ h => ?_⟩
      rcases putc16_stored h 0xfffd with herr | ⟨hbd, hlen, hwide⟩
      · exact Or.inl herr
      · exact Or.inr ⟨hbd, hlen, fun _ => hwide (Or.inr (by omega))⟩

/-- **The scanning loop at any length**: an error, or a unit at least for each scalar. -/
theorem newStringLoop_stored (t : List Char) {n₀ : ℤ} {b : StringBuffer} (hb : b.Bounded n₀) :
    Stored n₀ b (newStringLoop (utf8 t) b) t.length (∃ c ∈ t, 0x100 ≤ c.toNat) := by
  have herror : ∀ (t : List Char) (b : StringBuffer), b.error_status = true →
      (newStringLoop (utf8 t) b).error_status = true := by
    intro t
    induction t with
    | nil =>
      intro b hb
      rw [utf8_nil, newStringLoop]
      exact hb
    | cons c t ih =>
      intro b hb
      obtain ⟨r, heq, hstep⟩ := newStringLoop_step c t b
      rw [utf8_cons, heq]
      exact ih r (hstep.error hb)
  induction t generalizing b with
  | nil =>
    rw [utf8_nil, newStringLoop]
    exact Or.inr ⟨hb, le_refl _, fun h => h.resolve_right (by simp)⟩
  | cons c t ih =>
    obtain ⟨r, heq, hstep⟩ := newStringLoop_step c t b
    rw [utf8_cons, heq]
    rcases hstep.stored n₀ hb with herr | ⟨hbd, hlen, hwide⟩
    · exact Or.inl (herror t r herr)
    · rcases ih hbd with herr | ⟨hbd', hlen', hwide'⟩
      · exact Or.inl herr
      · refine Or.inr ⟨hbd', by rw [List.length_cons]; omega, ?_⟩
        rintro (h | ⟨d, hd, hge⟩)
        · exact hwide' (Or.inl (hwide (Or.inl h)))
        · rcases List.mem_cons.mp hd with rfl | hd
          · exact hwide' (Or.inl (hwide (Or.inr hge)))
          · exact hwide' (Or.inr ⟨d, hd, hge⟩)

theorem length_le_utf8 (t : List Char) : t.length ≤ (utf8 t).length := by
  induction t with
  | nil => simp
  | cons c t ih =>
    rw [utf8_cons, List.length_append, String.length_utf8EncodeChar, List.length_cons]
    have := c.utf8Size_pos
    omega

theorem length_utf8_latin1 {t : List Char} (h : ∀ c ∈ t, c.toNat < 0x100) :
    (utf8 t).length ≤ 2 * t.length := by
  induction t with
  | nil => simp
  | cons c t ih =>
    have hc : (String.utf8EncodeChar c).length ≤ 2 := by
      rcases Nat.lt_or_ge c.toNat 0x80 with h1 | h1
      · rw [utf8EncodeChar_one h1]
        simp
      · have := h c List.mem_cons_self
        rw [utf8EncodeChar_two h1 (by omega)]
        simp
    have := ih (fun d hd => h d (List.mem_cons_of_mem c hd))
    rw [utf8_cons, List.length_append, List.length_cons]
    omega

/-- The copied ASCII start leaves a bounded buffer. -/
theorem write8_bounded {n₀ : ℤ} {a : List UInt8} (hhi : n₀ < 2 ^ 31)
    (ha : a.length ≤ JS_STRING_LEN_MAX) :
    ∃ n, string_buffer_write8 ⟨.str8 [], n₀, false⟩ a = ⟨.str8 a, n, false⟩ ∧
      StringBuffer.Bounded n₀ ⟨.str8 a, n, false⟩ := by
  have hlen : StringBuffer.len ⟨.str8 [], n₀, false⟩ = 0 := rfl
  have hbounded : ∀ n : ℤ, a.length ≤ n →
      (n = n₀ ∨ (n₀ ≤ JS_STRING_LEN_MAX ∧ n ≤ JS_STRING_LEN_MAX)) →
      StringBuffer.Bounded n₀ ⟨.str8 a, n, false⟩ := by
    intro n hn hsize
    refine ⟨hhi, rfl, ?_, hsize, fun h => absurd h Bool.false_ne_true⟩
    rw [StringBuffer.len, JSString.units, List.length_map]
    exact hn
  by_cases hroom : n₀ < a.length
  · have hfull : n₀ < ((0 : ℕ) : ℤ) + a.length := by push_cast; omega
    have hgrow : string_buffer_realloc ⟨.str8 [], n₀, false⟩ (0 + a.length) 0
        = ⟨.str8 [], min (max (a.length : ℤ) (n₀ * 3 / 2)) JS_STRING_LEN_MAX, false⟩ := by
      rw [string_buffer_realloc, if_neg Bool.false_ne_true, if_neg (by omega), Nat.zero_add]
      rfl
    refine ⟨min (max (a.length : ℤ) (n₀ * 3 / 2)) JS_STRING_LEN_MAX, ?_,
      hbounded _ (by omega) (Or.inr ⟨by omega, min_le_right _ _⟩)⟩
    rw [string_buffer_write8, hlen, if_pos hfull, hgrow]
    rfl
  · have hfits : ¬ n₀ < ((0 : ℕ) : ℤ) + a.length := by push_cast; omega
    refine ⟨n₀, ?_, hbounded _ (by omega) (Or.inl rfl)⟩
    rw [string_buffer_write8, hlen, if_neg hfits]
    rfl

theorem cInt_lt (n : ℤ) : cInt n < 2 ^ 31 := by
  have := @Int.bmod_lt n (2 ^ 32) (by norm_num)
  rw [cInt]
  omega

/-- A length that the reduction leaves non-negative has not been reduced, if it is less
than twice as large. -/
theorem lt_of_cInt_nonneg {n : ℕ} (h : 0 ≤ cInt n) (hlt : n < 2 ^ 32) : n < 2 ^ 31 := by
  rw [cInt, Int.bmod_def] at h
  split_ifs at h <;> omega

/-- A character that is not ASCII is not in the ASCII start. -/
theorem mem_dropWhile_of_not_ascii {t : List Char} {c : Char} (hc : c ∈ t) (hge : 0x80 ≤ c.toNat) :
    c ∈ t.dropWhile (fun c => c.toNat < 0x80) := by
  rw [← @List.takeWhile_append_dropWhile _ (fun c : Char => decide (c.toNat < 0x80)) t] at hc
  rcases List.mem_append.mp hc with hc | hc
  · have := List.mem_takeWhile_imp hc
    simp only [decide_eq_true_eq] at this
    omega
  · exact hc

/-- **`JS_NewStringLen` accepts encodable texts only.** -/
theorem encodable_of_JS_NewStringLen {t : List Char} {js : JSString}
    (h : JS_NewStringLen (utf8 t) = some js) : Encodable t := by
  have hsplit := List.takeWhile_append_dropWhile (p := fun c : Char => c.toNat < 0x80) (l := t)
  have hascii : ∀ c ∈ t.takeWhile (fun c => c.toNat < 0x80), c.toNat < 0x80 := by
    intro c hc
    simpa using List.mem_takeWhile_imp hc
  have hbytes : (utf8 t).takeWhile (· < 128) = utf8 (t.takeWhile (fun c => c.toNat < 0x80)) := by
    rw [takeWhile_ascii, utf8_of_ascii hascii]
  have hlen : (utf8 (t.takeWhile (fun c => c.toNat < 0x80))).length
      = (t.takeWhile (fun c => c.toNat < 0x80)).length := by
    rw [utf8_of_ascii hascii, List.length_map]
  rw [JS_NewStringLen, hbytes] at h
  dsimp only at h
  generalize ha : t.takeWhile (fun c => c.toNat < 0x80) = a at *
  generalize hr : t.dropWhile (fun c => c.toNat < 0x80) = r at *
  have hdrop : (utf8 t).drop (utf8 a).length = utf8 r := by
    rw [← hsplit, utf8_append, List.drop_left]
  have hcount : t.length = a.length + r.length := by rw [← hsplit, List.length_append]
  have hmax : a.length ≤ JS_STRING_LEN_MAX := by
    by_contra hgt
    rw [if_pos (by omega)] at h
    exact absurd h (by simp)
  have hmem : ∀ c ∈ t, 0x80 ≤ c.toNat → c ∈ r := by
    intro c hc hge
    rw [← hr]
    exact mem_dropWhile_of_not_ascii hc hge
  rw [if_neg (by omega)] at h
  by_cases hall : (utf8 a).length = (utf8 t).length
  · -- Nothing follows the ASCII start.
    have hnil : r = [] := by
      have := length_le_utf8 r
      rw [← hsplit, utf8_append, List.length_append] at hall
      exact List.length_eq_zero_iff.mp (by omega)
    have hnone : ∀ c ∈ t, ¬ 0x80 ≤ c.toNat := by
      intro c hc hge
      have := hmem c hc hge
      rw [hnil] at this
      exact List.not_mem_nil this
    refine ⟨by rw [ha]; exact hmax, ?_, ?_⟩
    · rintro ⟨c, hc, hge⟩
      exact absurd hge (hnone c hc)
    · rintro ⟨c, hc, hge⟩
      exact absurd (by omega) (hnone c hc)
  rw [if_neg hall, hdrop] at h
  have hlo : 0 ≤ cInt ((utf8 t).length : ℤ) := by
    by_contra hneg
    have hinit : string_buffer_init (cInt (utf8 t).length) = string_buffer_set_error := by
      rw [string_buffer_init, if_pos (not_le.mp hneg)]
    rw [hinit] at h
    exact absurd h (by simp [string_buffer_set_error])
  have hhi := cInt_lt (utf8 t).length
  have hinit : string_buffer_init (cInt (utf8 t).length)
      = ⟨.str8 [], cInt (utf8 t).length, false⟩ := by
    rw [string_buffer_init, if_neg (not_lt.mpr hlo)]
  obtain ⟨n, hwrite, hbd⟩ := write8_bounded hhi (a := utf8 a) (by omega)
  rw [hinit, if_neg Bool.false_ne_true, hwrite] at h
  rcases newStringLoop_stored r hbd with herr | ⟨hres, hge, hwide⟩
  · rw [string_buffer_end, if_pos herr] at h
    exact absurd h (by simp)
  have hlen' : StringBuffer.len ⟨.str8 (utf8 a), n, false⟩ = a.length := by
    rw [StringBuffer.len, JSString.units, List.length_map, hlen]
  rw [hlen', ← hcount] at hge
  generalize newStringLoop (utf8 r) ⟨.str8 (utf8 a), n, false⟩ = res at *
  obtain ⟨-, -, hle, hsize, hwide30⟩ := hres
  have hbytes4 := length_utf8_le t
  have hconst : (JS_STRING_LEN_MAX : ℤ) < 2 ^ 30 := by decide
  -- The byte count was not reduced.
  have hint : (utf8 t).length < 2 ^ 31 := by
    have hlt32 : (utf8 t).length < 2 ^ 32 := by
      by_cases hw : ∃ c ∈ r, 0x100 ≤ c.toNat
      · have := hwide30 (hwide (Or.inr hw))
        omega
      · have hnarrow : ∀ c ∈ t, c.toNat < 0x100 := by
          intro c hc
          by_contra hgt
          exact hw ⟨c, hmem c hc (by omega), by omega⟩
        have := length_utf8_latin1 hnarrow
        omega
    exact lt_of_cInt_nonneg hlo hlt32
  refine ⟨by rw [ha]; exact hmax, fun _ => hint, ?_⟩
  rintro ⟨c, hc, hge'⟩
  have hw := hwide30 (hwide (Or.inr ⟨c, hmem c hc (by omega), hge'⟩))
  have hself : cInt ((utf8 t).length : ℤ) = (utf8 t).length := by
    rw [cInt_eq_self (by omega) (by omega)]
  omega

/-- A scalar above U+00FF has a unit above 255. -/
theorem isWide_of_units {js : JSString} {t : List Char} (h : js.units = utf16 t)
    (hc : ∃ c ∈ t, 0x100 ≤ c.toNat) : js.isWide = true := by
  obtain ⟨c, hmem, hge⟩ := hc
  cases js with
  | str16 u => rfl
  | str8 u =>
    have ht : u.map latin1 = t := utf16_injective (by rw [utf16_latin1]; exact h)
    rw [← ht] at hmem
    obtain ⟨b, -, rfl⟩ := List.mem_map.mp hmem
    have hlt := b.toNat_lt
    rw [latin1_toNat] at hge
    omega

theorem length_utf16_le_utf8 (t : List Char) : (utf16 t).length ≤ (utf8 t).length := by
  induction t with
  | nil => simp
  | cons c t ih =>
    have := units_length_le c
    rw [utf16_cons, utf8_cons, List.length_append, List.length_append]
    omega

/-- **The round trip succeeds exactly within the limits**, and then cuts the text at its
first U+0000. -/
theorem roundTrip_eq_some_iff (s s' : List Char) :
    String.roundTrip s = some s' ↔
      Storable (s.takeWhile (· ≠ '\x00')) ∧ s' = s.takeWhile (· ≠ '\x00') := by
  constructor
  swap
  · rintro ⟨hs, rfl⟩
    exact roundTrip_eq hs
  intro h
  have hs : Storable (s.takeWhile (· ≠ '\x00')) := by
    cases hjs : String.jsValue s with
    | none =>
      rw [String.roundTrip, hjs, Option.bind_none] at h
      exact absurd h (by simp)
    | some js =>
      rw [String.roundTrip, hjs, Option.bind_some] at h
      have hnew := hjs
      rw [String.jsValue, JS_NewString, cString, takeWhile_utf8] at hnew
      have henc := encodable_of_JS_NewStringLen hnew
      refine ⟨henc, fun hwide => ?_⟩
      obtain ⟨js', hjs', hunits, -⟩ := jsValue_eq henc
      obtain rfl : js = js' := Option.some_inj.mp (hjs.symm.trans hjs')
      have hw := isWide_of_units hunits hwide
      have hlt := henc.2.2 hwide
      have hle := length_utf16_le_utf8 (s.takeWhile (· ≠ '\x00'))
      cases js with
      | str8 u => exact absurd hw Bool.false_ne_true
      | str16 u =>
        have hu : u = utf16 (s.takeWhile (· ≠ '\x00')) := hunits
        rw [← hu] at hle ⊢
        by_contra hge
        have hneg : cInt ((u.length : ℤ) * 3) < 0 := by
          rw [cInt, Int.bmod_def, Int.emod_eq_of_lt (by omega) (by push_cast; omega)]
          split_ifs <;> omega
        rw [String.initValue, JS_ToCString, if_pos hneg, Option.map_none] at h
        exact absurd h (by simp)
  refine ⟨hs, ?_⟩
  rw [roundTrip_eq hs, Option.some_inj] at h
  exact h.symm

/-! ## The atom of a Swift name -/

theorem units_length_lt {c : Char} (hc : 0x80 ≤ c.toNat) :
    (Utf.units c).length < (String.utf8EncodeChar c).length := by
  rcases Nat.lt_or_ge c.toNat 0x10000 with h | h
  · obtain ⟨u, hu, -⟩ := units_of_lt h
    rw [hu]
    rcases Nat.lt_or_ge c.toNat 0x800 with h2 | h2
    · rw [utf8EncodeChar_two hc h2]
      simp
    · rw [utf8EncodeChar_three h2 h]
      simp
  · obtain ⟨u, v, huv, -⟩ := units_of_ge h
    rw [huv, utf8EncodeChar_four h]
    simp

theorem length_utf16_lt_utf8 {t : List Char} (h : ∃ c ∈ t, 0x80 ≤ c.toNat) :
    (utf16 t).length < (utf8 t).length := by
  obtain ⟨c, hc, hge⟩ := h
  obtain ⟨l, r, rfl⟩ := List.append_of_mem hc
  have hl := length_utf16_le_utf8 l
  have hr := length_utf16_le_utf8 r
  have hmid := units_length_lt hge
  rw [utf16_append, utf8_append, utf16_cons, utf8_cons, List.length_append, List.length_append,
    List.length_append, List.length_append]
  omega

/-- An atom made from a Swift name holds no zero. It is the name, unless the name is cut
at a U+0000 or its bytes, read as Latin-1, are another name that is interned already,
which is then longer. -/
theorem JS_NewAtom_cases {interned : AtomTable} {k : List Char} {u : List UInt16}
    (h : JS_NewAtom interned (utf8 k) = some u) :
    0 ∉ u ∧ ('\x00' ∉ k → u = utf16 k ∨ (utf16 k).length < u.length) := by
  unfold JS_NewAtom JS_NewAtomLen at h
  rw [cString, takeWhile_utf8] at h
  have hcut : '\x00' ∉ k.takeWhile (· ≠ '\x00') := by
    intro hmem
    simpa using List.mem_takeWhile_imp hmem
  split_ifs at h
  · -- The bytes are in the atom table.
    rw [← Option.some_inj.mp h]
    constructor
    · intro hzero
      obtain ⟨b, hb, hb0⟩ := List.mem_map.mp hzero
      rw [← takeWhile_utf8] at hb
      have hne := List.mem_takeWhile_imp hb
      have : b = 0 := by
        rw [← UInt8.toNat_inj, ← UInt8.toNat_toUInt16, hb0]
        rfl
      simp [this] at hne
    · intro hk
      rw [(takeWhile_ne_nul_eq_self k).mpr hk]
      by_cases hascii : ∀ c ∈ k, c.toNat < 0x80
      · exact Or.inl (utf16_of_ascii hascii).symm
      · right
        rw [List.length_map]
        apply length_utf16_lt_utf8
        push Not at hascii
        exact hascii
  · obtain ⟨js, hjs, rfl⟩ := Option.map_eq_some_iff.mp h
    obtain ⟨js', hjs', hunits, -⟩ := JS_NewStringLen_utf8 (encodable_of_JS_NewStringLen hjs)
    obtain rfl : js = js' := Option.some_inj.mp (hjs.symm.trans hjs')
    rw [hunits]
    refine ⟨?_, fun hk => Or.inl ?_⟩
    · rw [zero_mem_utf16_iff]
      exact hcut
    · rw [(takeWhile_ne_nul_eq_self k).mpr hk]

end QuickJSSwift.Text
