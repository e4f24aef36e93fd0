/-
Strings between Swift and the engine: `String.jsValue` and `String.init?(_:value:)`
(`JSValue.swift`) over `JS_NewString`, `JS_ToCString` (`quickjs.c`) and the UTF-8
helpers of `cutils.c`.

A Swift string is the list of its Unicode scalars. It reaches the engine as a
zero-terminated UTF-8 buffer, is stored there as Latin-1 bytes (`str8`) or as 16-bit
units (`str16`), and comes back through another zero-terminated buffer. The storage
switches from narrow to wide at the first scalar above U+00FF, in the middle of the
scan; the string buffer that does it is modelled with its size, its error flag and
the machine arithmetic of its allocation requests.

Allocation is assumed to succeed whenever the request is a byte count. The request is
computed in `int`, so a string of about a gigabyte can turn it negative, which the
allocator sees as nearly `2 ^ 64` bytes and refuses; `JS_NewStringLen` also refuses
more than `JS_STRING_LEN_MAX` leading ASCII characters outright. `Encodable` and
`Decodable` say which lengths are below all of that.
-/
import QuickJSSwift.Lib.Utf
import Mathlib.Tactic.Linarith

set_option autoImplicit false

namespace QuickJSSwift.Text

open Utf

/-! ## `cutils.c` -/

/-- `unicode_to_utf8`: the bytes written for `c`. -/
def unicode_to_utf8 (c : ℕ) : List UInt8 :=
  if c < 0x80 then
    [UInt8.ofNat c]
  else if c < 0x800 then
    [UInt8.ofNat ((c >>> 6) ||| 0xc0), UInt8.ofNat ((c &&& 0x3f) ||| 0x80)]
  else if c < 0x10000 then
    [UInt8.ofNat ((c >>> 12) ||| 0xe0), UInt8.ofNat (((c >>> 6) &&& 0x3f) ||| 0x80),
      UInt8.ofNat ((c &&& 0x3f) ||| 0x80)]
  else if c < 0x00200000 then
    [UInt8.ofNat ((c >>> 18) ||| 0xf0), UInt8.ofNat (((c >>> 12) &&& 0x3f) ||| 0x80),
      UInt8.ofNat (((c >>> 6) &&& 0x3f) ||| 0x80), UInt8.ofNat ((c &&& 0x3f) ||| 0x80)]
  else if c < 0x04000000 then
    [UInt8.ofNat ((c >>> 24) ||| 0xf8), UInt8.ofNat (((c >>> 18) &&& 0x3f) ||| 0x80),
      UInt8.ofNat (((c >>> 12) &&& 0x3f) ||| 0x80), UInt8.ofNat (((c >>> 6) &&& 0x3f) ||| 0x80),
      UInt8.ofNat ((c &&& 0x3f) ||| 0x80)]
  else if c < 0x80000000 then
    [UInt8.ofNat ((c >>> 30) ||| 0xfc), UInt8.ofNat (((c >>> 24) &&& 0x3f) ||| 0x80),
      UInt8.ofNat (((c >>> 18) &&& 0x3f) ||| 0x80), UInt8.ofNat (((c >>> 12) &&& 0x3f) ||| 0x80),
      UInt8.ofNat (((c >>> 6) &&& 0x3f) ||| 0x80), UInt8.ofNat ((c &&& 0x3f) ||| 0x80)]
  else
    []

/-- The number of continuation bytes the first byte announces. -/
def utf8_extra (c : ℕ) : Option ℕ :=
  if 0xc0 ≤ c ∧ c ≤ 0xdf then some 1
  else if 0xe0 ≤ c ∧ c ≤ 0xef then some 2
  else if 0xf0 ≤ c ∧ c ≤ 0xf7 then some 3
  else if 0xf8 ≤ c ∧ c ≤ 0xfb then some 4
  else if 0xfc ≤ c ∧ c ≤ 0xfd then some 5
  else none

/-- `utf8_min_code`, indexed by the number of continuation bytes. -/
def utf8_min_code : ℕ → ℕ
  | 1 => 0x80
  | 2 => 0x800
  | 3 => 0x10000
  | 4 => 0x00200000
  | _ => 0x04000000

/-- `utf8_first_code_mask`, indexed by the number of continuation bytes. -/
def utf8_first_code_mask : ℕ → ℕ
  | 1 => 0x1f
  | 2 => 0xf
  | 3 => 0x7
  | 4 => 0x3
  | _ => 0x1

/-- The continuation loop of `unicode_from_utf8`. -/
def continuation : ℕ → ℕ → List UInt8 → Option (ℕ × List UInt8)
  | 0, c, p => some (c, p)
  | _ + 1, _, [] => none
  | i + 1, c, b :: p =>
    if b < 0x80 ∨ 0xc0 ≤ b then none
    else continuation i ((c <<< 6) ||| (b.toNat &&& 0x3f)) p

/-- `unicode_from_utf8`: the code and the rest of the buffer, or `none` for `-1`. -/
def unicode_from_utf8 (p : List UInt8) (max_len : ℤ) : Option (ℕ × List UInt8) :=
  match p with
  | [] => none
  | b :: p =>
    if b < 0x80 then some (b.toNat, p)
    else
      match utf8_extra b.toNat with
      | none => none
      | some l =>
        if max_len - 1 < l then none
        else
          match continuation l (b.toNat &&& utf8_first_code_mask l) p with
          | none => none
          | some (c, rest) => if c < utf8_min_code l then none else some (c, rest)

/-! ## Strings and string buffers -/

/-- `JSString`: 8-bit or 16-bit characters. -/
inductive JSString
  | str8 (u : List UInt8)
  | str16 (u : List UInt16)
  deriving DecidableEq, Repr

/-- The code units of a string, whichever way they are stored. -/
def JSString.units : JSString → List UInt16
  | .str8 u => u.map UInt8.toUInt16
  | .str16 u => u

/-- `JS_STRING_LEN_MAX`. -/
def JS_STRING_LEN_MAX : ℕ := 2 ^ 30 - 1

/-- A size stored in a C `int`. -/
def cInt (n : ℤ) : ℤ := n.bmod (2 ^ 32)

theorem cInt_eq_self {n : ℤ} (hlo : -2 ^ 31 ≤ n) (hhi : n < 2 ^ 31) : cInt n = n := by
  rw [cInt, Int.bmod_eq_of_le (by omega) (by omega)]

/-- `StringBuffer`; the length is that of the characters written so far. -/
structure StringBuffer where
  str : JSString
  size : ℤ
  error_status : Bool
  deriving DecidableEq, Repr

/-- `s->len`. -/
def StringBuffer.len (s : StringBuffer) : ℕ := s.str.units.length

/-- `string_buffer_set_error`. -/
def string_buffer_set_error : StringBuffer := ⟨.str8 [], 0, true⟩

/-- `string_buffer_init`: fails when the allocation request is negative. -/
def string_buffer_init (size : ℤ) : StringBuffer :=
  if size < 0 then string_buffer_set_error else ⟨.str8 [], size, false⟩

/-- `string_buffer_widen`, with the request `size << 1` computed in `int`. -/
def string_buffer_widen (s : StringBuffer) (size : ℤ) : StringBuffer :=
  if s.error_status then s
  else if cInt (size * 2) < 0 then string_buffer_set_error
  else { s with str := .str16 s.str.units, size := size }

/-- `string_buffer_realloc`. The slack the allocator may report only enlarges `size`
and is taken as zero. -/
def string_buffer_realloc (s : StringBuffer) (new_len : ℕ) (c : ℕ) : StringBuffer :=
  if s.error_status then s
  else if JS_STRING_LEN_MAX < new_len then string_buffer_set_error
  else
    let new_size := min (max (new_len : ℤ) (s.size * 3 / 2)) JS_STRING_LEN_MAX
    match s.str with
    | .str8 _ => if 0x100 ≤ c then string_buffer_widen s new_size else { s with size := new_size }
    | .str16 _ => { s with size := new_size }

/-- Storing one character where there is room: `str16[len++] = c` or
`str8[len++] = c`. -/
def StringBuffer.push (s : StringBuffer) (c : ℕ) : StringBuffer :=
  match s.str with
  | .str8 u => { s with str := .str8 (u ++ [UInt8.ofNat c]) }
  | .str16 u => { s with str := .str16 (u ++ [UInt16.ofNat c]) }

/-- The room a character needs: `string_buffer_realloc` when the buffer is full. -/
def StringBuffer.reserve (s : StringBuffer) (c : ℕ) : StringBuffer :=
  if s.size ≤ s.len then string_buffer_realloc s (s.len + 1) c else s

/-- `string_buffer_putc8`, `0 <= c <= 0xff`. -/
def string_buffer_putc8 (s : StringBuffer) (c : ℕ) : StringBuffer :=
  let s := s.reserve c
  if s.error_status then s else s.push c

/-- `string_buffer_putc16` with `string_buffer_putc_slow`, `0 <= c <= 0xffff`. -/
def string_buffer_putc16 (s : StringBuffer) (c : ℕ) : StringBuffer :=
  let s := s.reserve c
  if s.error_status then s
  else
    match s.str with
    | .str16 _ => s.push c
    | .str8 _ =>
      if c < 0x100 then s.push c
      else
        let s := string_buffer_widen s s.size
        if s.error_status then s else s.push c

/-- `string_buffer_write8`, called on an empty narrow buffer. -/
def string_buffer_write8 (s : StringBuffer) (p : List UInt8) : StringBuffer :=
  let s := if s.size < s.len + p.length then string_buffer_realloc s (s.len + p.length) 0 else s
  if s.error_status then s
  else
    match s.str with
    | .str8 u => { s with str := .str8 (u ++ p) }
    | .str16 u => { s with str := .str16 (u ++ p.map UInt8.toUInt16) }

/-- `string_buffer_end`; `none` is `JS_EXCEPTION`. -/
def string_buffer_end (s : StringBuffer) : Option JSString :=
  if s.error_status then none
  else if s.len = 0 then some (.str8 [])
  else some s.str

/-! ## `JS_NewStringLen` -/

theorem continuation_length {i c c' : ℕ} {p rest : List UInt8}
    (h : continuation i c p = some (c', rest)) : rest.length ≤ p.length := by
  induction i generalizing c p with
  | zero =>
    rw [continuation, Option.some_inj, Prod.mk.injEq] at h
    rw [h.2]
  | succ i ih =>
    cases p with
    | nil => simp [continuation] at h
    | cons b p =>
      rw [continuation] at h
      split_ifs at h
      have := ih h
      rw [List.length_cons]
      omega

/-- A decoded character consumes at least its first byte. -/
theorem unicode_from_utf8_length {p rest : List UInt8} {max_len : ℤ} {c : ℕ}
    (h : unicode_from_utf8 p max_len = some (c, rest)) : rest.length < p.length := by
  cases p with
  | nil => simp [unicode_from_utf8] at h
  | cons b p =>
    rw [List.length_cons, Nat.lt_succ_iff]
    simp only [unicode_from_utf8] at h
    split_ifs at h
    · rw [Option.some_inj, Prod.mk.injEq] at h
      rw [h.2]
    · split at h
      · exact absurd h (by simp)
      · split_ifs at h
        split at h
        · exact absurd h (by simp)
        · next hcont =>
          split_ifs at h
          rw [Option.some_inj, Prod.mk.injEq] at h
          rw [← h.2]
          exact continuation_length hcont

/-- `*p >= 0x80 && *p < 0xc0`. -/
def isTail (b : UInt8) : Bool := 0x80 ≤ b && b < 0xc0

/-- Skipping the invalid characters: a run of continuation bytes, one more byte, and
the continuation bytes after it. -/
def skipInvalid (p : List UInt8) : List UInt8 :=
  match p.dropWhile isTail with
  | [] => []
  | _ :: rest => rest.dropWhile isTail

theorem skipInvalid_length {b : UInt8} {p : List UInt8} :
    (skipInvalid (b :: p)).length < (b :: p).length := by
  have hdrop : ∀ l : List UInt8, (l.dropWhile isTail).length ≤ l.length :=
    fun l => (List.dropWhile_suffix _).length_le
  have hfirst := hdrop (b :: p)
  rw [skipInvalid]
  split
  · simp
  · next x rest hx =>
    rw [hx, List.length_cons] at hfirst
    have := hdrop rest
    omega

/-- The scanning loop of `JS_NewStringLen`, from the first non-ASCII byte on. The
remaining length is passed as an `int`. -/
def newStringLoop : List UInt8 → StringBuffer → StringBuffer
  | [], b => b
  | x :: p, b =>
    if x < 128 then newStringLoop p (string_buffer_putc8 b x.toNat)
    else
      match h : unicode_from_utf8 (x :: p) (cInt (x :: p).length) with
      | some (c, p_next) =>
        if c < 0x10000 then
          newStringLoop p_next (string_buffer_putc16 b c)
        else if c ≤ 0x10FFFF then
          -- surrogate pair
          let c := c - 0x10000
          newStringLoop p_next (string_buffer_putc16
            (string_buffer_putc16 b ((c >>> 10) + 0xd800)) ((c &&& 0x3ff) + 0xdc00))
        else
          newStringLoop (skipInvalid (x :: p)) (string_buffer_putc16 b 0xfffd)
      | none => newStringLoop (skipInvalid (x :: p)) (string_buffer_putc16 b 0xfffd)
termination_by p => p.length
decreasing_by
  · simp
  · exact unicode_from_utf8_length h
  · exact unicode_from_utf8_length h
  · exact skipInvalid_length
  · exact skipInvalid_length

/-- `js_new_string8`. -/
def js_new_string8 (buf : List UInt8) : Option JSString := some (.str8 buf)

/-- `JS_NewStringLen`; `none` is `JS_EXCEPTION`. -/
def JS_NewStringLen (buf : List UInt8) : Option JSString :=
  let ascii := buf.takeWhile (· < 128)
  if JS_STRING_LEN_MAX < ascii.length then
    -- `JS_ThrowInternalError(ctx, "string too long")`
    none
  else if ascii.length = buf.length then
    js_new_string8 buf
  else
    let b := string_buffer_init (cInt buf.length)
    if b.error_status then none
    else string_buffer_end (newStringLoop (buf.drop ascii.length) (string_buffer_write8 b ascii))

/-- The bytes a C function sees behind a `const char *`. -/
def cString (bytes : List UInt8) : List UInt8 := bytes.takeWhile (· ≠ 0)

/-- `JS_NewString`. -/
def JS_NewString (str : List UInt8) : Option JSString := JS_NewStringLen (cString str)

/-! ## Atoms

A property or module name is an atom: an interned string. Only the units of the string
matter, so `JSAtom` is their list, and `none` is `JS_ATOM_NULL`. -/

/-- `JSAtom`. -/
abbrev JSAtom := Option (List UInt16)

/-- `is_digit`. -/
def is_digit (b : UInt8) : Bool := 0x30 ≤ b && b ≤ 0x39

/-- The narrow strings of the atom table, as `__JS_FindAtom` compares them: byte by
byte with the C string, which is taken as it is and not decoded. -/
abbrev AtomTable := List (List UInt8)

/-- `JS_NewAtomLen`. -/
def JS_NewAtomLen (interned : AtomTable) (str : List UInt8) : JSAtom :=
  if !(str.head?.any is_digit) && interned.contains str then
    some (str.map UInt8.toUInt16)
  else
    (JS_NewStringLen str).map JSString.units

/-- `JS_NewAtom`. -/
def JS_NewAtom (interned : AtomTable) (str : List UInt8) : JSAtom :=
  JS_NewAtomLen interned (cString str)

/-! ## `JS_ToCStringLen2`, on strings, with `cesu8 = FALSE` -/

/-- One Latin-1 character. -/
def narrowUtf8 (c : UInt8) : List UInt8 :=
  if c < 0x80 then [c]
  else [UInt8.ofNat ((c.toNat >>> 6) ||| 0xc0), UInt8.ofNat ((c.toNat &&& 0x3f) ||| 0x80)]

/-- The loop over 16-bit characters. Unmatched surrogates are kept. -/
def wideUtf8 : List UInt16 → List UInt8
  | [] => []
  | [c] => if c < 0x80 then [UInt8.ofNat c.toNat] else unicode_to_utf8 c.toNat
  | c :: c1 :: rest =>
    if c < 0x80 then UInt8.ofNat c.toNat :: wideUtf8 (c1 :: rest)
    else if 0xd800 ≤ c ∧ c < 0xdc00 ∧ 0xdc00 ≤ c1 ∧ c1 < 0xe000 then
      -- surrogate pair
      unicode_to_utf8 ((((c.toNat &&& 0x3ff) <<< 10) ||| (c1.toNat &&& 0x3ff)) + 0x10000)
        ++ wideUtf8 rest
    else
      unicode_to_utf8 c.toNat ++ wideUtf8 (c1 :: rest)

/-- `JS_ToCString` of a string: the bytes before the terminator, or `none` for `NULL`.
The allocation requests are computed in `int`. -/
def JS_ToCString : JSString → Option (List UInt8)
  | .str8 src =>
    let count := src.countP (0x80 ≤ ·)
    if count = 0 then some src
    else if cInt (src.length + count) < 0 then none
    else some (src.flatMap narrowUtf8)
  | .str16 src => if cInt (src.length * 3) < 0 then none else some (wideUtf8 src)

/-! ## The Swift conversions -/

/-- `String.jsValue`: the string value, or `none` when `JS_NewString` fails and the
handle wraps `JS_EXCEPTION`. -/
def String.jsValue (self : List Char) : Option JSString := JS_NewString (utf8 self)

/-- `String(cString:)`: UTF-8 up to the first zero byte, repaired. -/
def String.initCString (bytes : List UInt8) : List Char := decode (cString bytes)

/-- `String.init?(_:value:)` on a string value. -/
def String.initValue (value : JSString) : Option (List Char) :=
  (JS_ToCString value).map String.initCString

/-- `String(context, value: s.jsValue(context).cValue)`: an exception value has no
string conversion. -/
def String.roundTrip (s : List Char) : Option (List Char) :=
  (String.jsValue s).bind String.initValue

/-! ## Bytes as arithmetic

The masks and shifts of the encoder and of the decoder act on disjoint bits, so each
is a quotient, a remainder and a constant. -/

theorem lead_byte {x k a : ℕ} (h : x < 2 ^ k) : x ||| 2 ^ k * a = x + 2 ^ k * a := by
  rw [Nat.or_comm, ← Nat.two_pow_add_eq_or_of_lt h, Nat.add_comm]

theorem tail_byte (x : ℕ) : (x &&& 0x3f) ||| 0x80 = x % 64 + 0x80 := by
  have hmod : x &&& 0x3f = x % 64 := Nat.and_two_pow_sub_one_eq_mod x 6
  rw [hmod]
  exact lead_byte (k := 6) (a := 2) (Nat.mod_lt _ (by norm_num))

theorem join_bytes (c b : ℕ) : (c <<< 6) ||| (b &&& 0x3f) = c * 64 + b % 64 := by
  have hmod : b &&& 0x3f = b % 2 ^ 6 := Nat.and_two_pow_sub_one_eq_mod b 6
  have hor := Nat.two_pow_add_eq_or_of_lt (i := 6) (b := b % 2 ^ 6) (Nat.mod_lt _ (by norm_num)) c
  rw [hmod, Nat.shiftLeft_eq, Nat.mul_comm c, ← hor, Nat.mul_comm]

/-- `unicode_to_utf8` is UTF-8 on scalars. -/
theorem unicode_to_utf8_char (c : Char) : unicode_to_utf8 c.toNat = String.utf8EncodeChar c := by
  have hrange := char_range c
  rw [unicode_to_utf8]
  simp only [Nat.shiftRight_eq_div_pow, tail_byte, Nat.reducePow]
  by_cases h1 : c.toNat < 0x80
  · rw [if_pos h1, utf8EncodeChar_one h1]
  rw [if_neg h1]
  by_cases h2 : c.toNat < 0x800
  · have hlead : c.toNat / 64 ||| 0xc0 = c.toNat / 64 + 0xc0 :=
      lead_byte (k := 6) (a := 3) (by omega)
    rw [if_pos h2, utf8EncodeChar_two (by omega) h2, hlead]
  rw [if_neg h2]
  by_cases h3 : c.toNat < 0x10000
  · have hlead : c.toNat / 4096 ||| 0xe0 = c.toNat / 4096 + 0xe0 :=
      lead_byte (k := 4) (a := 14) (by omega)
    rw [if_pos h3, utf8EncodeChar_three (by omega) h3, hlead]
  have hlead : c.toNat / 262144 ||| 0xf0 = c.toNat / 262144 + 0xf0 :=
    lead_byte (k := 3) (a := 30) (by omega)
  rw [if_neg h3, if_pos (by omega), utf8EncodeChar_four (by omega), hlead]

theorem byte_toNat {n : ℕ} (h : n < 256) : (UInt8.ofNat n).toNat = n := by
  rw [UInt8.toNat_ofNat']
  exact Nat.mod_eq_of_lt h

/-- One continuation byte. -/
theorem continuation_tail (i c x : ℕ) (p : List UInt8) :
    continuation (i + 1) c (UInt8.ofNat (x % 64 + 0x80) :: p) = continuation i (c * 64 + x % 64) p := by
  have hb : (UInt8.ofNat (x % 64 + 0x80)).toNat = x % 64 + 0x80 := byte_toNat (by omega)
  have hrange : ¬ (UInt8.ofNat (x % 64 + 0x80) < 0x80 ∨ 0xc0 ≤ UInt8.ofNat (x % 64 + 0x80)) := by
    rw [UInt8.lt_iff_toNat_lt, UInt8.le_iff_toNat_le, hb]
    simp only [UInt8.reduceToNat]
    omega
  rw [continuation, if_neg hrange, join_bytes, hb]
  congr 1
  omega

/-- The decoder behind a first byte that announces `l` continuation bytes. -/
theorem unicode_from_utf8_lead {n l : ℕ} {p : List UInt8} {max_len : ℤ} (hn : n < 256)
    (hlo : 0x80 ≤ n) (hl : utf8_extra n = some l) (hmax : (l : ℤ) + 1 ≤ max_len) :
    unicode_from_utf8 (UInt8.ofNat n :: p) max_len
      = match continuation l (n &&& utf8_first_code_mask l) p with
        | none => none
        | some (c, rest) => if c < utf8_min_code l then none else some (c, rest) := by
  have hb : (UInt8.ofNat n).toNat = n := byte_toNat hn
  have hge : ¬ UInt8.ofNat n < 0x80 := by
    rw [UInt8.lt_iff_toNat_lt, hb]
    simp only [UInt8.reduceToNat]
    omega
  simp only [unicode_from_utf8]
  rw [if_neg hge, hb, hl]
  dsimp only
  rw [if_neg (by omega)]

/-- **`unicode_from_utf8` reads back an encoded scalar.** -/
theorem unicode_from_utf8_char {c : Char} (hc : 0x80 ≤ c.toNat) (rest : List UInt8) {max_len : ℤ}
    (hlen : ((String.utf8EncodeChar c).length : ℤ) ≤ max_len) :
    unicode_from_utf8 (String.utf8EncodeChar c ++ rest) max_len = some (c.toNat, rest) := by
  have hrange := char_range c
  have hmask : ∀ n k : ℕ, n &&& (2 ^ k - 1) = n % 2 ^ k := Nat.and_two_pow_sub_one_eq_mod
  rcases Nat.lt_or_ge c.toNat 0x800 with h2 | h2
  · rw [utf8EncodeChar_two hc h2] at hlen ⊢
    simp only [List.length_cons, List.length_nil] at hlen
    simp only [List.cons_append, List.nil_append]
    have hfst : c.toNat / 64 + 0xc0 &&& utf8_first_code_mask 1 = c.toNat / 64 := by
      have hand : c.toNat / 64 + 0xc0 &&& 0x1f = (c.toNat / 64 + 0xc0) % 32 := hmask _ 5
      rw [utf8_first_code_mask, hand]
      omega
    rw [unicode_from_utf8_lead (l := 1) (by omega) (by omega)
      (by rw [utf8_extra, if_pos (by omega)]) (by omega), hfst, continuation_tail, continuation]
    dsimp only
    rw [show c.toNat / 64 * 64 + c.toNat % 64 = c.toNat by omega,
      if_neg (by simp only [utf8_min_code]; omega)]
  rcases Nat.lt_or_ge c.toNat 0x10000 with h3 | h3
  · rw [utf8EncodeChar_three h2 h3] at hlen ⊢
    simp only [List.length_cons, List.length_nil] at hlen
    simp only [List.cons_append, List.nil_append]
    have hfst : c.toNat / 4096 + 0xe0 &&& utf8_first_code_mask 2 = c.toNat / 4096 := by
      have hand : c.toNat / 4096 + 0xe0 &&& 0xf = (c.toNat / 4096 + 0xe0) % 16 := hmask _ 4
      rw [utf8_first_code_mask, hand]
      omega
    rw [unicode_from_utf8_lead (l := 2) (by omega) (by omega)
      (by rw [utf8_extra, if_neg (by omega), if_pos (by omega)]) (by omega), hfst,
      continuation_tail, continuation_tail, continuation]
    dsimp only
    rw [show (c.toNat / 4096 * 64 + c.toNat / 64 % 64) * 64 + c.toNat % 64 = c.toNat by omega,
      if_neg (by simp only [utf8_min_code]; omega)]
  · rw [utf8EncodeChar_four h3] at hlen ⊢
    simp only [List.length_cons, List.length_nil] at hlen
    simp only [List.cons_append, List.nil_append]
    have hfst : c.toNat / 262144 + 0xf0 &&& utf8_first_code_mask 3 = c.toNat / 262144 := by
      have hand : c.toNat / 262144 + 0xf0 &&& 0x7 = (c.toNat / 262144 + 0xf0) % 8 := hmask _ 3
      rw [utf8_first_code_mask, hand]
      omega
    rw [unicode_from_utf8_lead (l := 3) (by omega) (by omega)
      (by rw [utf8_extra, if_neg (by omega), if_neg (by omega), if_pos (by omega)]) (by omega), hfst,
      continuation_tail, continuation_tail, continuation_tail, continuation]
    dsimp only
    rw [show ((c.toNat / 262144 * 64 + c.toNat / 4096 % 64) * 64 + c.toNat / 64 % 64) * 64
        + c.toNat % 64 = c.toNat by omega, if_neg (by simp only [utf8_min_code]; omega)]

/-! ## Filling the buffer

`JSString.put` is what storing a character does when the allocations go through;
`putc16_eq` and `putc8_eq` say when they do. -/

/-- Append one character, widening the storage when it does not fit in eight bits. -/
def JSString.put : JSString → ℕ → JSString
  | .str8 u, c =>
    if c < 0x100 then .str8 (u ++ [UInt8.ofNat c])
    else .str16 (u.map UInt8.toUInt16 ++ [UInt16.ofNat c])
  | .str16 u, c => .str16 (u ++ [UInt16.ofNat c])

theorem units_put (s : JSString) (c : ℕ) : (s.put c).units = s.units ++ [UInt16.ofNat c] := by
  cases s with
  | str8 u =>
    rw [JSString.put]
    split_ifs with h
    · have hc : (UInt8.ofNat c).toUInt16 = UInt16.ofNat c := by
        rw [← UInt16.toNat_inj, UInt8.toNat_toUInt16, UInt16.toNat_ofNat', UInt8.toNat_ofNat']
        omega
      simp only [JSString.units, List.map_append, List.map_cons, List.map_nil, hc]
    · rfl
  | str16 u => rfl

/-- Room for one more character, and for the wide copy if it may be needed. -/
theorem putc16_eq {b : StringBuffer} {c : ℕ} (herr : b.error_status = false)
    (hroom : (b.len : ℤ) < b.size) (hwide : 0x100 ≤ c → b.size < 2 ^ 30) :
    string_buffer_putc16 b c = { b with str := b.str.put c } := by
  obtain ⟨str, size, error⟩ := b
  obtain rfl : error = false := herr
  have hres : StringBuffer.reserve ⟨str, size, false⟩ c = ⟨str, size, false⟩ := by
    rw [StringBuffer.reserve, if_neg (not_le.mpr hroom)]
  have hsize : 0 ≤ size := by
    have : (0 : ℤ) ≤ (StringBuffer.len ⟨str, size, false⟩ : ℤ) := by positivity
    simp only at hroom
    omega
  rw [string_buffer_putc16, hres]
  cases str with
  | str16 u => rfl
  | str8 u =>
    simp only [JSString.put]
    by_cases hc : c < 0x100
    · rw [if_pos hc]
      simp only [if_pos hc]
      rfl
    · rw [if_neg hc]
      have hint : ¬ cInt (size * 2) < 0 := by
        have := hwide (by omega)
        simp only at this
        rw [cInt_eq_self (by omega) (by omega)]
        omega
      simp only [if_neg hc, string_buffer_widen, if_neg hint]
      rfl

/-- The same for `string_buffer_putc8`, whose characters never widen. -/
theorem putc8_eq {b : StringBuffer} {c : ℕ} (herr : b.error_status = false)
    (hroom : (b.len : ℤ) < b.size) (hc : c < 0x100) :
    string_buffer_putc8 b c = { b with str := b.str.put c } := by
  obtain ⟨str, size, error⟩ := b
  obtain rfl : error = false := herr
  have hres : StringBuffer.reserve ⟨str, size, false⟩ c = ⟨str, size, false⟩ := by
    rw [StringBuffer.reserve, if_neg (not_le.mpr hroom)]
  rw [string_buffer_putc8, hres]
  cases str with
  | str16 u => rfl
  | str8 u =>
    simp only [JSString.put, if_pos hc]
    rfl

/-- Append the units of a scalar. -/
def JSString.putChar (s : JSString) (c : Char) : JSString :=
  (Utf.units c).foldl (fun s u => s.put u.toNat) s

/-- Append a text. -/
def JSString.putText (s : JSString) (t : List Char) : JSString := t.foldl JSString.putChar s

theorem units_foldl_put (l : List UInt16) (s : JSString) :
    (l.foldl (fun s u => s.put u.toNat) s).units = s.units ++ l := by
  induction l generalizing s with
  | nil => simp
  | cons u l ih => rw [List.foldl_cons, ih, units_put, UInt16.ofNat_toNat]; simp

theorem units_putChar (s : JSString) (c : Char) : (s.putChar c).units = s.units ++ Utf.units c :=
  units_foldl_put _ _

theorem units_putText (s : JSString) (t : List Char) : (s.putText t).units = s.units ++ utf16 t := by
  induction t generalizing s with
  | nil => simp [JSString.putText]
  | cons c t ih =>
    rw [JSString.putText, List.foldl_cons, ← JSString.putText, ih, units_putChar, utf16_cons,
      List.append_assoc]

/-- A scalar takes no more units than bytes. -/
theorem units_length_le (c : Char) :
    (Utf.units c).length ≤ (String.utf8EncodeChar c).length := by
  rcases Nat.lt_or_ge c.toNat 0x10000 with h | h
  · obtain ⟨u, hu, -⟩ := units_of_lt h
    rw [hu]
    exact List.length_pos_iff.mpr String.utf8EncodeChar_ne_nil
  · obtain ⟨u, v, huv, -⟩ := units_of_ge h
    rw [huv, utf8EncodeChar_four h]
    simp

/-- A scalar from U+0080 on starts with a byte of 128 or more. -/
theorem utf8EncodeChar_head {c : Char} (hc : 0x80 ≤ c.toNat) (l : List UInt8) :
    ∃ x p, String.utf8EncodeChar c ++ l = x :: p ∧ ¬ x < 128 := by
  have hrange := char_range c
  have hge : ∀ n, 128 ≤ n → n < 256 → ¬ UInt8.ofNat n < 128 := by
    intro n hlo hhi
    rw [UInt8.lt_iff_toNat_lt, byte_toNat hhi]
    simp only [UInt8.reduceToNat]
    omega
  rcases Nat.lt_or_ge c.toNat 0x800 with h2 | h2
  · exact ⟨_, _, by rw [utf8EncodeChar_two hc h2]; rfl, hge _ (by omega) (by omega)⟩
  rcases Nat.lt_or_ge c.toNat 0x10000 with h3 | h3
  · exact ⟨_, _, by rw [utf8EncodeChar_three h2 h3]; rfl, hge _ (by omega) (by omega)⟩
  · exact ⟨_, _, by rw [utf8EncodeChar_four h3]; rfl, hge _ (by omega) (by omega)⟩

/-- The two stores of a surrogate pair. -/
theorem putPair_eq {c : Char} {b : StringBuffer} (hc : 0x10000 ≤ c.toNat)
    (herr : b.error_status = false) (hroom : (b.len : ℤ) + 4 ≤ b.size) (hsize : b.size < 2 ^ 30) :
    string_buffer_putc16 (string_buffer_putc16 b (((c.toNat - 0x10000) >>> 10) + 0xd800))
      ((c.toNat - 0x10000 &&& 0x3ff) + 0xdc00) = { b with str := b.str.putChar c } := by
  have hrange := char_range c
  have hand : c.toNat - 0x10000 &&& 0x3ff = (c.toNat - 0x10000) % 1024 :=
    Nat.and_two_pow_sub_one_eq_mod _ 10
  have hshift : (c.toNat - 0x10000) >>> 10 = (c.toNat - 0x10000) / 1024 :=
    Nat.shiftRight_eq_div_pow _ 10
  have hfst : (UInt16.ofNat ((c.toNat - 0x10000) / 1024 + 0xd800)).toNat
      = (c.toNat - 0x10000) / 1024 + 0xd800 := by
    rw [UInt16.toNat_ofNat']; omega
  have hsnd : (UInt16.ofNat ((c.toNat - 0x10000) % 1024 + 0xdc00)).toNat
      = (c.toNat - 0x10000) % 1024 + 0xdc00 := by
    rw [UInt16.toNat_ofNat']; omega
  have hroom' : (StringBuffer.len { b with
      str := b.str.put ((c.toNat - 0x10000) / 1024 + 0xd800) } : ℤ) < b.size := by
    rw [StringBuffer.len, units_put, List.length_append, List.length_singleton]
    rw [StringBuffer.len] at hroom
    push_cast
    omega
  rw [hand, hshift, putc16_eq herr (by omega) (fun _ => hsize),
    putc16_eq (b := { b with str := b.str.put ((c.toNat - 0x10000) / 1024 + 0xd800) }) herr hroom'
      (fun _ => hsize),
    JSString.putChar, Utf.units, if_neg (by omega), List.foldl_cons, List.foldl_cons,
    List.foldl_nil, hfst, hsnd]

/-- **One round of the scanning loop** stores one scalar. -/
theorem newStringLoop_char (c : Char) (l : List UInt8) {b : StringBuffer}
    (herr : b.error_status = false)
    (hroom : (b.len : ℤ) + (String.utf8EncodeChar c).length ≤ b.size)
    (hwide : 0x100 ≤ c.toNat → b.size < 2 ^ 30)
    (hint : (String.utf8EncodeChar c ++ l).length < 2 ^ 31) :
    newStringLoop (String.utf8EncodeChar c ++ l) b
      = newStringLoop l { b with str := b.str.putChar c } := by
  have hlen := units_length_le c
  rcases Nat.lt_or_ge c.toNat 0x80 with h1 | h1
  · -- An ASCII byte goes through `string_buffer_putc8`.
    obtain ⟨u, hu, hval, -⟩ := units_of_lt (c := c) (by omega)
    have hb : (UInt8.ofNat c.toNat).toNat = c.toNat := byte_toNat (by omega)
    have hlt : UInt8.ofNat c.toNat < 128 := by
      rw [UInt8.lt_iff_toNat_lt, hb]
      simp only [UInt8.reduceToNat]
      omega
    rw [hu, List.length_singleton] at hlen
    rw [utf8EncodeChar_one h1, List.singleton_append, newStringLoop, if_pos hlt, hb,
      putc8_eq herr (by omega) (by omega), JSString.putChar, hu, List.foldl_cons, List.foldl_nil,
      hval]
  · -- Anything else starts with a byte of 128 or more and is decoded.
    have hint' : cInt ((String.utf8EncodeChar c ++ l).length : ℤ)
        = (String.utf8EncodeChar c ++ l).length := by
      rw [cInt_eq_self (by omega) (by omega)]
    have hdec : unicode_from_utf8 (String.utf8EncodeChar c ++ l)
        (cInt (String.utf8EncodeChar c ++ l).length) = some (c.toNat, l) := by
      rw [hint']
      exact unicode_from_utf8_char h1 l (by rw [List.length_append]; omega)
    obtain ⟨x, p, hxp, hx⟩ := utf8EncodeChar_head h1 l
    rw [hxp] at hdec ⊢
    rw [newStringLoop, if_neg hx]
    split
    · next c' p_next heq =>
      rw [hdec, Option.some_inj, Prod.mk.injEq] at heq
      obtain ⟨rfl, rfl⟩ := heq
      rcases Nat.lt_or_ge c.toNat 0x10000 with h3 | h3
      · obtain ⟨u, hu, hval, -⟩ := units_of_lt h3
        rw [hu, List.length_singleton] at hlen
        rw [if_pos h3, putc16_eq herr (by omega) hwide, JSString.putChar, hu, List.foldl_cons,
          List.foldl_nil, hval]
      · have hrange := char_range c
        have hroom4 : (b.len : ℤ) + 4 ≤ b.size := by
          rw [utf8EncodeChar_four h3] at hroom
          exact hroom
        rw [if_neg (by omega), if_pos (by omega)]
        dsimp only
        rw [putPair_eq h3 herr hroom4 (hwide (by omega))]
    · next heq =>
      rw [hdec] at heq
      exact absurd heq (by simp)

/-- **The scanning loop** stores the whole text. The size never changes, so one bound
on it serves every widening. -/
theorem newStringLoop_text (t : List Char) {b : StringBuffer} (herr : b.error_status = false)
    (hroom : (b.len : ℤ) + (utf8 t).length ≤ b.size) (hsize : b.size < 2 ^ 31)
    (hwide : (∃ c ∈ t, 0x100 ≤ c.toNat) → b.size < 2 ^ 30) :
    newStringLoop (utf8 t) b = { b with str := b.str.putText t } := by
  induction t generalizing b with
  | nil => rw [utf8_nil, newStringLoop]; rfl
  | cons c t ih =>
    rw [utf8_cons, List.length_append] at hroom
    have hunits := units_length_le c
    rw [utf8_cons, newStringLoop_char c (utf8 t) herr (by push_cast at hroom; omega)
      (fun h => hwide ⟨c, List.mem_cons_self, h⟩)
      (by rw [List.length_append]; push_cast at hroom; omega)]
    rw [ih (b := { b with str := b.str.putChar c }) herr]
    · rfl
    · rw [StringBuffer.len, units_putChar, List.length_append]
      rw [StringBuffer.len] at hroom
      push_cast at hroom ⊢
      omega
    · exact hsize
    · rintro ⟨d, hd, hge⟩
      exact hwide ⟨d, List.mem_cons_of_mem c hd, hge⟩

/-! ## The limits

A text can be encoded when its ASCII start is no longer than a string may be, and when
the allocation requests of the remaining scan are no negative `int`s; a string can be
decoded when the request for its C string is none. -/

/-- `JS_NewStringLen` accepts the text. -/
def Encodable (t : List Char) : Prop :=
  (t.takeWhile (fun c => c.toNat < 0x80)).length ≤ JS_STRING_LEN_MAX ∧
  ((∃ c ∈ t, 0x80 ≤ c.toNat) → (utf8 t).length < 2 ^ 31) ∧
  ((∃ c ∈ t, 0x100 ≤ c.toNat) → (utf8 t).length < 2 ^ 30)

/-- Both conversions accept the text: it can be encoded, and the wide copy it may need
can be decoded. -/
def Storable (t : List Char) : Prop :=
  Encodable t ∧ ((∃ c ∈ t, 0x100 ≤ c.toNat) → 3 * (utf16 t).length < 2 ^ 31)

/-- The storage is 16 bits wide. -/
def JSString.isWide : JSString → Bool
  | .str8 _ => false
  | .str16 _ => true

theorem isWide_putChar {s : JSString} {c : Char} (h : (s.putChar c).isWide = true) :
    s.isWide = true ∨ 0x100 ≤ c.toNat := by
  by_contra hcon
  rw [not_or, not_le] at hcon
  obtain ⟨hs, hc⟩ := hcon
  obtain ⟨u, hu, hval, -⟩ := units_of_lt (c := c) (by omega)
  cases s with
  | str16 l => exact hs rfl
  | str8 l =>
    rw [JSString.putChar, hu, List.foldl_cons, List.foldl_nil, JSString.put, hval, if_pos hc] at h
    exact absurd h Bool.false_ne_true

/-- A text of Latin-1 scalars leaves a narrow string narrow. -/
theorem isWide_putText {s : JSString} {t : List Char} (h : (s.putText t).isWide = true) :
    s.isWide = true ∨ ∃ c ∈ t, 0x100 ≤ c.toNat := by
  induction t generalizing s with
  | nil => exact Or.inl h
  | cons c t ih =>
    rcases ih h with hs | ⟨d, hd, hge⟩
    · rcases isWide_putChar hs with hs' | hc
      · exact Or.inl hs'
      · exact Or.inr ⟨c, List.mem_cons_self, hc⟩
    · exact Or.inr ⟨d, List.mem_cons_of_mem c hd, hge⟩

/-- The ASCII start of the bytes is the ASCII start of the text. -/
theorem takeWhile_ascii (t : List Char) :
    (utf8 t).takeWhile (· < 128)
      = (t.takeWhile (fun c => c.toNat < 0x80)).map (fun c => UInt8.ofNat c.toNat) := by
  induction t with
  | nil => rfl
  | cons c t ih =>
    rw [utf8_cons]
    rcases Nat.lt_or_ge c.toNat 0x80 with h | h
    · have hlt : UInt8.ofNat c.toNat < 128 := by
        rw [UInt8.lt_iff_toNat_lt, byte_toNat (by omega)]
        exact h
      rw [utf8EncodeChar_one h, List.singleton_append, List.takeWhile_cons_of_pos (by simpa using hlt),
        ih, List.takeWhile_cons_of_pos (by simpa using h), List.map_cons]
    · obtain ⟨x, p, hxp, hx⟩ := utf8EncodeChar_head h (utf8 t)
      rw [hxp, List.takeWhile_cons_of_neg (by simpa using hx),
        List.takeWhile_cons_of_neg (by simpa using h), List.map_nil]

theorem utf8_of_ascii {t : List Char} (h : ∀ c ∈ t, c.toNat < 0x80) :
    utf8 t = t.map (fun c => UInt8.ofNat c.toNat) := by
  induction t with
  | nil => rfl
  | cons c t ih =>
    rw [utf8_cons, utf8EncodeChar_one (h c List.mem_cons_self),
      ih (fun d hd => h d (List.mem_cons_of_mem c hd))]
    rfl

theorem utf16_of_ascii {t : List Char} (h : ∀ c ∈ t, c.toNat < 0x80) :
    utf16 t = (utf8 t).map UInt8.toUInt16 := by
  rw [utf8_of_ascii h, List.map_map]
  induction t with
  | nil => rfl
  | cons c t ih =>
    have hc := h c List.mem_cons_self
    have hunit : Utf.units c = [(UInt8.ofNat c.toNat).toUInt16] := by
      rw [Utf.units, if_pos (by omega)]
      congr 1
      rw [← UInt16.toNat_inj, UInt8.toNat_toUInt16, UInt16.toNat_ofNat', UInt8.toNat_ofNat']
      omega
    rw [utf16_cons, ih (fun d hd => h d (List.mem_cons_of_mem c hd)), hunit]
    rfl

theorem utf8_append (a r : List Char) : utf8 (a ++ r) = utf8 a ++ utf8 r := List.flatMap_append

theorem utf16_append (a r : List Char) : utf16 (a ++ r) = utf16 a ++ utf16 r := List.flatMap_append

/-- The ASCII fast path copies the bytes. -/
theorem JS_NewStringLen_ascii {t : List Char} (ht : ∀ c ∈ t, c.toNat < 0x80)
    (hmax : t.length ≤ JS_STRING_LEN_MAX) : JS_NewStringLen (utf8 t) = some (.str8 (utf8 t)) := by
  have hall : t.takeWhile (fun c => c.toNat < 0x80) = t :=
    List.takeWhile_eq_self_iff.mpr (fun c hc => by simpa using ht c hc)
  have hbytes : (utf8 t).takeWhile (· < 128) = utf8 t := by
    rw [takeWhile_ascii, hall, utf8_of_ascii ht]
  have hlen : (utf8 t).length = t.length := by rw [utf8_of_ascii ht, List.length_map]
  rw [JS_NewStringLen, hbytes]
  dsimp only
  rw [if_neg (by omega), if_pos rfl]
  rfl

/-- The buffered path: an ASCII start `a` is copied, the scan starts at `c`. -/
theorem JS_NewStringLen_scan {a l : List Char} {c : Char} (ha : ∀ c ∈ a, c.toNat < 0x80)
    (hc : 0x80 ≤ c.toNat) (ht : Encodable (a ++ c :: l)) :
    JS_NewStringLen (utf8 (a ++ c :: l)) = some ((JSString.str8 (utf8 a)).putText (c :: l)) := by
  have htake : (a ++ c :: l).takeWhile (fun c => c.toNat < 0x80) = a := by
    rw [List.takeWhile_append_of_pos (fun d hd => by simpa using ha d hd),
      List.takeWhile_cons_of_neg (by simpa using hc), List.append_nil]
  obtain ⟨hmax, hint, hwide⟩ := ht
  rw [htake] at hmax
  have hlt := hint ⟨c, by simp, hc⟩
  have hbytes : (utf8 (a ++ c :: l)).takeWhile (· < 128) = utf8 a := by
    rw [takeWhile_ascii, htake, utf8_of_ascii ha]
  have hlen : (utf8 a).length = a.length := by rw [utf8_of_ascii ha, List.length_map]
  have hdrop : (utf8 (a ++ c :: l)).drop (utf8 a).length = utf8 (c :: l) := by
    rw [utf8_append, List.drop_left]
  have hne : 0 < (utf8 (c :: l)).length := by
    rw [utf8_cons, List.length_append]
    have := List.length_pos_iff.mpr (String.utf8EncodeChar_ne_nil (c := c))
    omega
  have hsum : (utf8 (a ++ c :: l)).length = (utf8 a).length + (utf8 (c :: l)).length := by
    rw [utf8_append, List.length_append]
  have hsize : cInt ((utf8 (a ++ c :: l)).length : ℤ) = (utf8 (a ++ c :: l)).length := by
    rw [cInt_eq_self (by omega) (by omega)]
  rw [JS_NewStringLen, hbytes]
  dsimp only
  rw [if_neg (by omega), if_neg (by omega), hsize, hdrop]
  generalize (utf8 (a ++ c :: l)).length = n at *
  have hinit : string_buffer_init (n : ℤ) = ⟨.str8 [], n, false⟩ := by
    rw [string_buffer_init, if_neg (by omega)]
  have hwrite : string_buffer_write8 ⟨.str8 [], n, false⟩ (utf8 a) = ⟨.str8 (utf8 a), n, false⟩ := by
    have hfits : ¬ (n : ℤ) < (StringBuffer.len ⟨.str8 [], n, false⟩ : ℤ) + (utf8 a).length := by
      rw [show StringBuffer.len ⟨.str8 [], n, false⟩ = 0 from rfl]
      push_cast
      omega
    rw [string_buffer_write8, if_neg hfits]
    rfl
  have hloop := newStringLoop_text (c :: l) (b := ⟨.str8 (utf8 a), n, false⟩) rfl
    (by
      rw [StringBuffer.len, JSString.units, List.length_map]
      dsimp only
      omega)
    (by dsimp only; omega)
    (by
      rintro ⟨d, hd, hge⟩
      have := hwide ⟨d, List.mem_append_right a hd, hge⟩
      dsimp only
      omega)
  have hpos : StringBuffer.len ⟨(JSString.str8 (utf8 a)).putText (c :: l), n, false⟩ ≠ 0 := by
    have hu : 0 < (Utf.units c).length := by rw [Utf.units]; split_ifs <;> simp
    rw [StringBuffer.len, units_putText, utf16_cons, List.length_append, List.length_append]
    omega
  rw [hinit, if_neg Bool.false_ne_true, hwrite, hloop, string_buffer_end,
    if_neg Bool.false_ne_true, if_neg hpos]

/-- **`JS_NewStringLen` on the bytes of an encodable text** stores its UTF-16 units, in
eight bits unless some scalar needs more. -/
theorem JS_NewStringLen_utf8 {t : List Char} (ht : Encodable t) :
    ∃ js, JS_NewStringLen (utf8 t) = some js ∧ js.units = utf16 t ∧
      (js.isWide = true → ∃ c ∈ t, 0x100 ≤ c.toNat) := by
  have hsplit := List.takeWhile_append_dropWhile (p := fun c : Char => c.toNat < 0x80) (l := t)
  have hascii : ∀ c ∈ t.takeWhile (fun c => c.toNat < 0x80), c.toNat < 0x80 := by
    intro c hc
    simpa using List.mem_takeWhile_imp hc
  cases hr : t.dropWhile (fun c => c.toNat < 0x80) with
  | nil =>
    have hall : ∀ c ∈ t, c.toNat < 0x80 := fun c hc => by
      simpa using List.dropWhile_eq_nil_iff.mp hr c hc
    have hself : t.takeWhile (fun c => c.toNat < 0x80) = t :=
      List.takeWhile_eq_self_iff.mpr (fun c hc => by simpa using hall c hc)
    have hmax := ht.1
    rw [hself] at hmax
    exact ⟨_, JS_NewStringLen_ascii hall hmax, (utf16_of_ascii hall).symm,
      fun h => absurd h Bool.false_ne_true⟩
  | cons c l =>
    have hc : 0x80 ≤ c.toNat := by
      have := List.head?_dropWhile_not (p := fun c : Char => c.toNat < 0x80) t
      rw [hr] at this
      simpa using this
    rw [hr] at hsplit
    rw [← hsplit] at ht
    have hnew := JS_NewStringLen_scan hascii hc ht
    rw [hsplit] at hnew
    refine ⟨_, hnew, ?_, fun h => ?_⟩
    · rw [units_putText, JSString.units, ← utf16_of_ascii hascii, ← utf16_append, hsplit]
    · rcases isWide_putText h with h' | ⟨d, hd, hge⟩
      · exact absurd h' Bool.false_ne_true
      · exact ⟨d, by rw [← hsplit]; exact List.mem_append_right _ hd, hge⟩

end QuickJSSwift.Text
