/-
Rounding an integer to a fixed number of significant bits, and the binary64 bit
patterns that carry the rounded value.

Nothing here knows about a JavaScript engine. The file has two layers:

* `RoundsTo p n r` says what "round `n` to `p` significant bits, ties to even"
  means, by distances only; `roundNat`/`roundInt` compute it and
  `roundInt_roundsTo` connects the two.
* `ofInt` is the integer-to-double conversion as a bit pattern, `expo`, `frac`
  and `trunc` read a pattern back, and `trunc_ofInt` says that truncating the
  converted integer gives the rounded integer.

The significand is kept as a natural number throughout. The carry of a
significand that rounds up to `2 ^ 53` into the exponent field is not a case of
its own: adding the significand to the exponent field performs it.
-/
import Mathlib.Data.Nat.Size
import Mathlib.Data.Int.Order.Basic
import Mathlib.Algebra.Order.Ring.Abs
import Mathlib.Tactic.Ring
import Mathlib.Tactic.Linarith
import Mathlib.Tactic.NormNum

set_option autoImplicit false

namespace Binary64

/-! ## What rounding to `p` significant bits means -/

/-- `m` is a `p`-bit integer times a power of two. -/
def HasSigBits (p : ℕ) (m : ℤ) : Prop := ∃ (a : ℤ) (k : ℕ), |a| < 2 ^ p ∧ m = a * 2 ^ k

/-- `r` is the integer with `p` significant bits nearest to `n`; of two nearest
ones it is the one whose last significand bit is clear, that is, the one that
fits in `p - 1` bits. -/
def RoundsTo (p : ℕ) (n r : ℤ) : Prop :=
  HasSigBits p r ∧ ∀ m, HasSigBits p m →
    m = r ∨ |n - r| < |n - m| ∨ (|n - r| = |n - m| ∧ HasSigBits (p - 1) r)

theorem HasSigBits.neg {p : ℕ} {m : ℤ} (h : HasSigBits p m) : HasSigBits p (-m) := by
  obtain ⟨a, k, ha, rfl⟩ := h
  exact ⟨-a, k, by rwa [abs_neg], by ring⟩

/-- Rounding is symmetric in the sign. -/
theorem RoundsTo.neg {p : ℕ} {n r : ℤ} (h : RoundsTo p n r) : RoundsTo p (-n) (-r) := by
  refine ⟨h.1.neg, fun m hm => ?_⟩
  have hd : |-n - -r| = |n - r| := by rw [← abs_neg]; congr 1; ring
  have hdm : |-n - m| = |n - -m| := by rw [← abs_neg]; congr 1; ring
  rw [hd, hdm]
  rcases h.2 (-m) hm.neg with heq | hlt | ⟨htie, heven⟩
  · exact Or.inl (by rw [← heq, neg_neg])
  · exact Or.inr (Or.inl hlt)
  · exact Or.inr (Or.inr ⟨htie, heven.neg⟩)

/-- A number that already has `p` significant bits rounds to itself. -/
theorem RoundsTo.self {p : ℕ} {n : ℤ} (h : HasSigBits p n) : RoundsTo p n n := by
  refine ⟨h, fun m _ => ?_⟩
  by_cases hm : m = n
  · exact Or.inl hm
  · refine Or.inr (Or.inl ?_)
    rw [sub_self, abs_zero]
    exact abs_pos.mpr (sub_ne_zero.mpr (Ne.symm hm))

/-- One step up from a number with one bit to spare: the half step where there
is room below the last bit, the unit step otherwise. -/
theorem exists_above {p : ℕ} (hp : 2 ≤ p) {a b : ℤ} {k : ℕ} (ha : |a| < 2 ^ (p - 1))
    (hab : a * 2 ^ k + 2 ≤ b * 2 ^ k) :
    ∃ m, HasSigBits p m ∧ a * 2 ^ k < m ∧ m < b * 2 ^ k := by
  have hpow : (2 : ℤ) ^ p = 2 * 2 ^ (p - 1) := by rw [← pow_succ']; congr 1; omega
  have hone : (1 : ℤ) ≤ 2 ^ (p - 1) := one_le_pow₀ (by norm_num)
  obtain ⟨hlo, hhi⟩ := abs_lt.mp ha
  rcases Nat.eq_zero_or_pos k with rfl | hk
  · refine ⟨a + 1, ⟨a + 1, 0, abs_lt.mpr ⟨by omega, by omega⟩, by ring⟩, ?_, ?_⟩
    · rw [pow_zero]; omega
    · rw [pow_zero] at *; omega
  · obtain ⟨j, rfl⟩ : ∃ j, k = j + 1 := ⟨k - 1, by omega⟩
    have hj : (0 : ℤ) < 2 ^ j := by positivity
    have hstep : a * 2 ^ (j + 1) + 2 ^ (j + 1) ≤ b * 2 ^ (j + 1) := by
      have hlt : a < b := by
        by_contra hge
        have := mul_le_mul_of_nonneg_right (not_lt.mp hge)
          (show (0 : ℤ) ≤ 2 ^ (j + 1) by positivity)
        omega
      calc a * 2 ^ (j + 1) + 2 ^ (j + 1) = (a + 1) * 2 ^ (j + 1) := by ring
        _ ≤ b * 2 ^ (j + 1) := mul_le_mul_of_nonneg_right (by omega) (by positivity)
    have hval : (2 * a + 1) * 2 ^ j = a * 2 ^ (j + 1) + 2 ^ j := by ring
    have hdouble : (2 : ℤ) ^ (j + 1) = 2 * 2 ^ j := by ring
    refine ⟨(2 * a + 1) * 2 ^ j, ⟨2 * a + 1, j, abs_lt.mpr ⟨by omega, by omega⟩, rfl⟩, ?_, ?_⟩
    · omega
    · omega

/-- Two different numbers with a bit to spare leave room for a third one. -/
theorem exists_between {p : ℕ} (hp : 2 ≤ p) {r s : ℤ} (hr : HasSigBits (p - 1) r)
    (hs : HasSigBits (p - 1) s) (hrs : r + 2 ≤ s) : ∃ m, HasSigBits p m ∧ r < m ∧ m < s := by
  obtain ⟨a, k, ha, rfl⟩ := hr
  obtain ⟨b, j, hb, rfl⟩ := hs
  rcases le_total k j with hkj | hjk
  · have hval : b * 2 ^ j = (b * 2 ^ (j - k)) * 2 ^ k := by
      rw [mul_assoc, ← pow_add, Nat.sub_add_cancel hkj]
    rw [hval] at hrs ⊢
    exact exists_above hp ha hrs
  · -- The mirror image of the case above.
    have hval : a * 2 ^ k = (a * 2 ^ (k - j)) * 2 ^ j := by
      rw [mul_assoc, ← pow_add, Nat.sub_add_cancel hjk]
    rw [hval] at hrs ⊢
    obtain ⟨m, hm, hlo, hhi⟩ := exists_above (a := -b) (b := -(a * 2 ^ (k - j))) (k := j) hp
      (by rwa [abs_neg]) (by rw [neg_mul, neg_mul]; omega)
    rw [neg_mul] at hlo hhi
    exact ⟨-m, hm.neg, by omega, by omega⟩

/-- Rounding has one result: two nearest numbers with even significands would
have a third one between them. -/
theorem RoundsTo.unique {p : ℕ} (hp : 2 ≤ p) {n r s : ℤ} (hr : RoundsTo p n r)
    (hs : RoundsTo p n s) : r = s := by
  by_contra hne
  have htie : |n - r| = |n - s| ∧ HasSigBits (p - 1) r ∧ HasSigBits (p - 1) s := by
    rcases hr.2 s hs.1 with h | h | ⟨h, her⟩
    · exact absurd h.symm hne
    · rcases hs.2 r hr.1 with h' | h' | ⟨h', -⟩
      · exact absurd h' hne
      · omega
      · omega
    · rcases hs.2 r hr.1 with h' | h' | ⟨-, hes⟩
      · exact absurd h' hne
      · omega
      · exact ⟨h, her, hes⟩
  obtain ⟨hdist, her, hes⟩ := htie
  have hmid : n - r = -(n - s) := by
    rcases abs_eq_abs.mp hdist with h | h
    · exact absurd (by omega) hne
    · exact h
  -- The number in between is closer to `n` than `r`.
  have hclose : ∀ m, (r < m ∧ m < s) ∨ (s < m ∧ m < r) → |n - m| < |n - r| := by
    intro m hm
    rcases hm with ⟨h1, h2⟩ | ⟨h1, h2⟩
    · rw [abs_of_nonneg (a := n - r) (by omega)]
      exact abs_lt.mpr ⟨by omega, by omega⟩
    · rw [abs_of_nonpos (a := n - r) (by omega)]
      exact abs_lt.mpr ⟨by omega, by omega⟩
  have hbetween : ∃ m, HasSigBits p m ∧ ((r < m ∧ m < s) ∨ (s < m ∧ m < r)) := by
    rcases lt_or_gt_of_ne hne with hlt | hlt
    · obtain ⟨m, hm, h1, h2⟩ := exists_between hp her hes (by omega)
      exact ⟨m, hm, Or.inl ⟨h1, h2⟩⟩
    · obtain ⟨m, hm, h1, h2⟩ := exists_between hp hes her (by omega)
      exact ⟨m, hm, Or.inr ⟨h1, h2⟩⟩
  obtain ⟨m, hm, hbet⟩ := hbetween
  have := hclose m hbet
  rcases hr.2 m hm with h | h | ⟨h, -⟩
  · omega
  · omega
  · omega

/-! ## Computing it -/

/-- `n / 2 ^ k` rounded to the nearest integer, ties to even. -/
def divRoundEven (n k : ℕ) : ℕ :=
  if 2 ^ k < 2 * (n % 2 ^ k) ∨ (2 ^ k = 2 * (n % 2 ^ k) ∧ n / 2 ^ k % 2 = 1) then
    n / 2 ^ k + 1
  else
    n / 2 ^ k

/-- Natural numbers, rounded to `p` significant bits. -/
def roundNat (p n : ℕ) : ℕ := divRoundEven n (n.size - p) * 2 ^ (n.size - p)

/-- Integers, rounded to `p` significant bits. -/
def roundInt (p : ℕ) (n : ℤ) : ℤ :=
  if n < 0 then -(roundNat p n.natAbs : ℤ) else roundNat p n.natAbs

theorem divRoundEven_zero (n : ℕ) : divRoundEven n 0 = n := by
  simp [divRoundEven, Nat.mod_one]

/-- The quotient moves by at most one. -/
theorem divRoundEven_bounds (n k : ℕ) :
    n / 2 ^ k ≤ divRoundEven n k ∧ divRoundEven n k ≤ n / 2 ^ k + 1 := by
  unfold divRoundEven
  split_ifs <;> omega

/-- A quotient that was rounded to even by a tie is even. -/
theorem divRoundEven_even {n k : ℕ} (htie : 2 ^ k = 2 * (n % 2 ^ k)) :
    divRoundEven n k % 2 = 0 := by
  unfold divRoundEven
  split_ifs <;> omega

/-- The leading `p` bits of a number with more than `p` bits. -/
theorem leading_bounds {p n : ℕ} (hp : 1 ≤ p) (hn : p < n.size) :
    2 ^ (p - 1) ≤ n / 2 ^ (n.size - p) ∧ n / 2 ^ (n.size - p) < 2 ^ p := by
  constructor
  · rw [Nat.le_div_iff_mul_le (Nat.two_pow_pos _), ← pow_add]
    exact Nat.lt_size.mp (by omega)
  · rw [Nat.div_lt_iff_lt_mul (Nat.two_pow_pos _), ← pow_add]
    exact lt_of_lt_of_eq (Nat.lt_size_self n) (by congr 1; omega)

/-- A `p`-bit number is a multiple of `2 ^ k`, or too small to compete with the
numbers that have `p + k` bits. -/
theorem HasSigBits.multiple_or_small {p : ℕ} (k : ℕ) (hp : 1 ≤ p) {m : ℤ}
    (h : HasSigBits p m) : (∃ b : ℤ, m = b * 2 ^ k) ∨ m < 2 ^ (p - 1) * 2 ^ k := by
  obtain ⟨a, j, ha, rfl⟩ := h
  rcases Nat.lt_or_ge j k with hj | hj
  · refine Or.inr ?_
    have hak : a * 2 ^ j < 2 ^ p * 2 ^ j :=
      mul_lt_mul_of_pos_right (lt_of_le_of_lt (le_abs_self a) ha) (by positivity)
    refine lt_of_lt_of_le hak ?_
    rw [← pow_add, ← pow_add]
    exact pow_le_pow_right₀ (by norm_num) (by omega)
  · refine Or.inl ⟨a * 2 ^ (j - k), ?_⟩
    rw [mul_assoc, ← pow_add, Nat.sub_add_cancel hj]

/-- A power of two has one significant bit. -/
theorem HasSigBits.two_pow {p : ℕ} (hp : 1 ≤ p) (k : ℕ) : HasSigBits p (2 ^ k) := by
  refine ⟨1, k, ?_, by ring⟩
  rw [abs_one]
  exact one_lt_pow₀ (by norm_num) (by omega)

/-- A significand up to and including `2 ^ p` still has `p` significant bits. -/
theorem HasSigBits.of_le {p c : ℕ} (hp : 1 ≤ p) (hc : c ≤ 2 ^ p) (k : ℕ) :
    HasSigBits p ((c : ℤ) * 2 ^ k) := by
  rcases Nat.lt_or_eq_of_le hc with hlt | heq
  · exact ⟨c, k, by rw [Nat.abs_cast]; exact_mod_cast hlt, rfl⟩
  · rw [heq]
    push_cast
    rw [← pow_add]
    exact HasSigBits.two_pow hp _

/-- Among the multiples of `D`, the rounded quotient `q` of `Q * D + R` is
strictly nearest unless `R` is exactly half of `D`. -/
theorem multiple_dist {D Q R q b : ℤ} (hR0 : 0 ≤ R) (hRD : R < D)
    (hq : (q = Q ∧ 2 * R ≤ D) ∨ (q = Q + 1 ∧ D ≤ 2 * R)) (hb : b ≠ q) :
    |Q * D + R - q * D| < |Q * D + R - b * D| ∨
      (|Q * D + R - q * D| = |Q * D + R - b * D| ∧ D = 2 * R) := by
  have hlow : b ≤ Q - 1 → b * D ≤ Q * D - D := by
    intro h
    calc b * D ≤ (Q - 1) * D := mul_le_mul_of_nonneg_right h (by omega)
      _ = Q * D - D := by ring
  have hhigh : Q + 2 ≤ b → Q * D + 2 * D ≤ b * D := by
    intro h
    calc Q * D + 2 * D = (Q + 2) * D := by ring
      _ ≤ b * D := mul_le_mul_of_nonneg_right h (by omega)
  have hsucc : (Q + 1) * D = Q * D + D := by ring
  -- `b` is below the quotient, the quotient, its successor, or above.
  have hcases : b ≤ Q - 1 ∨ b = Q ∨ b = Q + 1 ∨ Q + 2 ≤ b := by omega
  have hdist : b * D ≤ Q * D - D ∨ (b = Q ∧ b * D = Q * D) ∨
      (b = Q + 1 ∧ b * D = Q * D + D) ∨ Q * D + 2 * D ≤ b * D := by
    rcases hcases with h | h | h | h
    · exact Or.inl (hlow h)
    · exact Or.inr (Or.inl ⟨h, by rw [h]⟩)
    · exact Or.inr (Or.inr (Or.inl ⟨h, by rw [h, hsucc]⟩))
    · exact Or.inr (Or.inr (Or.inr (hhigh h)))
  rcases hq with ⟨rfl, hhalf⟩ | ⟨rfl, hhalf⟩
  · rw [show q * D + R - q * D = R by ring, abs_of_nonneg hR0]
    rcases le_total (b * D) (q * D + R) with h | h
    · rw [abs_of_nonneg (by omega)]; omega
    · rw [abs_of_nonpos (by omega)]; omega
  · rw [hsucc, show Q * D + R - (Q * D + D) = R - D by ring, abs_of_nonpos (by omega)]
    rcases le_total (b * D) (Q * D + R) with h | h
    · rw [abs_of_nonneg (by omega)]; omega
    · rw [abs_of_nonpos (by omega)]; omega

/-- The distance of `n` to a multiple of `2 ^ k` that is not the rounded one. -/
theorem divRoundEven_nearest (n k : ℕ) {b : ℤ} (hb : b ≠ divRoundEven n k) :
    |(n : ℤ) - divRoundEven n k * 2 ^ k| < |(n : ℤ) - b * 2 ^ k| ∨
      (|(n : ℤ) - divRoundEven n k * 2 ^ k| = |(n : ℤ) - b * 2 ^ k| ∧
        2 ^ k = 2 * (n % 2 ^ k)) := by
  have hmod : n % 2 ^ k < 2 ^ k := Nat.mod_lt _ (Nat.two_pow_pos k)
  have hdiv : (n : ℤ) = (n / 2 ^ k : ℕ) * (2 ^ k : ℕ) + (n % 2 ^ k : ℕ) := by
    exact_mod_cast (Nat.div_add_mod' n (2 ^ k)).symm
  have hcast : (2 : ℤ) ^ k = ((2 ^ k : ℕ) : ℤ) := by push_cast; rfl
  have hq : ((divRoundEven n k : ℤ) = (n / 2 ^ k : ℕ) ∧ 2 * ((n % 2 ^ k : ℕ) : ℤ) ≤ (2 ^ k : ℕ)) ∨
      ((divRoundEven n k : ℤ) = (n / 2 ^ k : ℕ) + 1 ∧
        ((2 ^ k : ℕ) : ℤ) ≤ 2 * ((n % 2 ^ k : ℕ) : ℤ)) := by
    unfold divRoundEven
    split_ifs <;> omega
  have hdist := multiple_dist (by omega) (by omega) hq hb
  rw [← hdiv, ← hcast] at hdist
  rcases hdist with hlt | ⟨heq, htie⟩
  · exact Or.inl hlt
  · exact Or.inr ⟨heq, by rw [hcast] at htie; exact_mod_cast htie⟩

/-- The rounded number is at most as far from `n` as anything below its leading
power of two. -/
theorem divRoundEven_beats_small {p n : ℕ} (hp : 1 ≤ p) (hn : p < n.size) {m : ℤ}
    (hm : m < 2 ^ (p - 1) * 2 ^ (n.size - p)) :
    |(n : ℤ) - divRoundEven n (n.size - p) * 2 ^ (n.size - p)| < |(n : ℤ) - m| := by
  have hlead := (leading_bounds hp hn).1
  generalize n.size - p = k at *
  have hcast : (2 : ℤ) ^ k = ((2 ^ k : ℕ) : ℤ) := by push_cast; rfl
  have hdiv : (n : ℤ) = (n / 2 ^ k : ℕ) * (2 ^ k : ℕ) + (n % 2 ^ k : ℕ) := by
    exact_mod_cast (Nat.div_add_mod' n (2 ^ k)).symm
  have hbase : (2 : ℤ) ^ (p - 1) * 2 ^ k ≤ (n / 2 ^ k : ℕ) * (2 ^ k : ℕ) := by
    rw [hcast]
    exact mul_le_mul_of_nonneg_right (by exact_mod_cast hlead) (by positivity)
  have hfloor : ((n % 2 ^ k : ℕ) : ℤ) < |(n : ℤ) - m| := by
    rw [abs_of_nonneg (by omega)]
    omega
  refine lt_of_le_of_lt ?_ hfloor
  -- Rounding down leaves the remainder; rounding up leaves no more than that.
  have hpos : 0 < 2 ^ k := Nat.two_pow_pos k
  have hmod : n % 2 ^ k < 2 ^ k := Nat.mod_lt _ hpos
  have hsucc : (((n / 2 ^ k : ℕ) : ℤ) + 1) * (2 ^ k : ℕ)
      = (n / 2 ^ k : ℕ) * (2 ^ k : ℕ) + (2 ^ k : ℕ) := by ring
  rw [hcast]
  unfold divRoundEven
  split_ifs with hup
  · rw [Nat.cast_add, Nat.cast_one, hsucc, abs_of_nonpos (by omega)]
    omega
  · rw [abs_of_nonneg (by omega)]
    omega

theorem roundNat_of_size_le {p n : ℕ} (hn : n.size ≤ p) : roundNat p n = n := by
  rw [roundNat, Nat.sub_eq_zero_of_le hn, divRoundEven_zero, pow_zero, mul_one]

/-- `roundNat` computes the rounding. -/
theorem roundNat_roundsTo {p : ℕ} (hp : 2 ≤ p) (n : ℕ) : RoundsTo p n (roundNat p n) := by
  rcases Nat.lt_or_ge p n.size with hn | hn
  · have hlead := (leading_bounds (by omega) hn).2
    have hq := (divRoundEven_bounds n (n.size - p)).2
    have hcast : ((roundNat p n : ℕ) : ℤ)
        = (divRoundEven n (n.size - p) : ℤ) * 2 ^ (n.size - p) := by
      rw [roundNat]; push_cast; rfl
    rw [hcast]
    refine ⟨HasSigBits.of_le (by omega) (by omega) _, fun m hm => ?_⟩
    rcases hm.multiple_or_small (n.size - p) (by omega) with ⟨b, rfl⟩ | hsmall
    · by_cases hb : b = divRoundEven n (n.size - p)
      · exact Or.inl (by rw [hb])
      · refine Or.inr ?_
        rcases divRoundEven_nearest n (n.size - p) hb with hlt | ⟨heq, htie⟩
        · exact Or.inl hlt
        · -- The tie: an even significand loses its last bit.
          refine Or.inr ⟨heq, ?_⟩
          obtain ⟨c, hc⟩ := Nat.dvd_of_mod_eq_zero (divRoundEven_even htie)
          have hpow : 2 ^ p = 2 * 2 ^ (p - 1) := by
            rw [← pow_succ']; congr 1; omega
          have hval : ((divRoundEven n (n.size - p) : ℕ) : ℤ) * 2 ^ (n.size - p)
              = (c : ℤ) * 2 ^ (n.size - p + 1) := by
            rw [hc]; push_cast; ring
          rw [hval]
          exact HasSigBits.of_le (by omega) (by omega) _
    · exact Or.inr (Or.inl (divRoundEven_beats_small (by omega) hn hsmall))
  · rw [roundNat_of_size_le hn]
    refine RoundsTo.self ⟨n, 0, ?_, by ring⟩
    rw [Nat.abs_cast]
    exact_mod_cast lt_of_lt_of_le (Nat.lt_size_self n) (Nat.pow_le_pow_right (by norm_num) hn)

/-- `roundInt` computes the rounding, for either sign. -/
theorem roundInt_roundsTo {p : ℕ} (hp : 2 ≤ p) (n : ℤ) : RoundsTo p n (roundInt p n) := by
  have h := roundNat_roundsTo hp n.natAbs
  unfold roundInt
  split_ifs with hneg
  · have := h.neg
    rwa [Int.ofNat_natAbs_of_nonpos hneg.le, neg_neg] at this
  · rwa [Int.natAbs_of_nonneg (not_lt.mp hneg)] at h

/-- A rounding result is the computed one. -/
theorem RoundsTo.eq_roundInt {p : ℕ} (hp : 2 ≤ p) {n r : ℤ} (h : RoundsTo p n r) :
    r = roundInt p n :=
  h.unique hp (roundInt_roundsTo hp n)

/-- Exactly the numbers with `p` significant bits are unchanged by rounding. -/
theorem roundInt_eq_self_iff {p : ℕ} (hp : 2 ≤ p) (n : ℤ) : roundInt p n = n ↔ HasSigBits p n := by
  constructor
  · intro h
    have := (roundInt_roundsTo hp n).1
    rwa [h] at this
  · intro h
    exact ((RoundsTo.self h).eq_roundInt hp).symm

/-- An integer of magnitude up to `2 ^ p` has `p` significant bits. -/
theorem HasSigBits.of_natAbs_le {p : ℕ} (hp : 1 ≤ p) {n : ℤ} (h : n.natAbs ≤ 2 ^ p) :
    HasSigBits p n := by
  have := HasSigBits.of_le hp h 0
  rw [pow_zero, mul_one] at this
  rcases Int.natAbs_eq n with hn | hn
  · rwa [hn]
  · rw [hn]; exact this.neg

/-- Rounding does not pass a power of two. -/
theorem roundInt_bounds {p k : ℕ} (hp : 2 ≤ p) {n : ℤ} (hlo : -2 ^ k ≤ n) (hhi : n ≤ 2 ^ k) :
    -2 ^ k ≤ roundInt p n ∧ roundInt p n ≤ 2 ^ k := by
  have hr := (roundInt_roundsTo hp n).2
  have hpow : HasSigBits p (2 ^ k) := HasSigBits.two_pow (by omega) k
  generalize roundInt p n = r at *
  have hnear : ∀ m, HasSigBits p m → |n - r| ≤ |n - m| := by
    intro m hm
    rcases hr m hm with h | h | ⟨h, -⟩
    · rw [h]
    · exact h.le
    · exact h.le
  have hup := hnear _ hpow
  have hdown := hnear _ hpow.neg
  rw [abs_of_nonpos (a := n - 2 ^ k) (by omega)] at hup
  rw [abs_of_nonneg (a := n - -2 ^ k) (by omega)] at hdown
  have h1 := abs_le.mp hup
  have h2 := abs_le.mp hdown
  omega

/-! ## Bit patterns

A pattern is one sign bit, eleven exponent bits and fifty-two fraction bits. -/

/-- The biased exponent field. -/
def expo (d : BitVec 64) : ℕ := d.toNat / 2 ^ 52 % 2 ^ 11

/-- The fraction field. -/
def frac (d : BitVec 64) : ℕ := d.toNat % 2 ^ 52

/-- The sign bit. -/
def negative (d : BitVec 64) : Prop := 2 ^ 63 ≤ d.toNat

instance (d : BitVec 64) : Decidable (negative d) := inferInstanceAs (Decidable (_ ≤ _))

/-- The integer part of the magnitude of a finite pattern. A subnormal pattern
has exponent field `0` and falls under the second branch, where the quotient is
`0` whatever the leading bit is. -/
def truncNat (d : BitVec 64) : ℕ :=
  if 1075 ≤ expo d then (2 ^ 52 + frac d) * 2 ^ (expo d - 1075)
  else (2 ^ 52 + frac d) / 2 ^ (1075 - expo d)

/-- A finite pattern truncated towards zero: what a C cast to an integer type
computes when the result fits. -/
def trunc (d : BitVec 64) : ℤ := if negative d then -(truncNat d : ℤ) else truncNat d

/-- The fifty-three significand bits of a positive number, leading bit included;
`2 ^ 53` when the rounding carries. -/
def significand (n : ℕ) : ℕ :=
  if n.size ≤ 53 then n * 2 ^ (53 - n.size) else divRoundEven n (n.size - 53)

/-- Exponent and fraction field of a natural number converted to a double. -/
def magnitude (n : ℕ) : ℕ :=
  if n = 0 then 0 else (n.size + 1022) * 2 ^ 52 + (significand n - 2 ^ 52)

/-- The conversion of an integer to a double, rounding to nearest, ties to even. -/
def ofInt (n : ℤ) : BitVec 64 :=
  BitVec.ofNat 64 ((if n < 0 then 2 ^ 63 else 0) + magnitude n.natAbs)

theorem significand_bounds {n : ℕ} (hn : 0 < n) :
    2 ^ 52 ≤ significand n ∧ significand n ≤ 2 ^ 53 := by
  unfold significand
  split_ifs with h
  · have hsize : 0 < n.size := Nat.size_pos.mpr hn
    have hlo : 2 ^ (n.size - 1) ≤ n := Nat.lt_size.mp (by omega)
    constructor
    · calc 2 ^ 52 = 2 ^ (n.size - 1) * 2 ^ (53 - n.size) := by
            rw [← pow_add]; congr 1; omega
        _ ≤ n * 2 ^ (53 - n.size) := Nat.mul_le_mul_right _ hlo
    · calc n * 2 ^ (53 - n.size) ≤ 2 ^ n.size * 2 ^ (53 - n.size) :=
            Nat.mul_le_mul_right _ (Nat.lt_size_self n).le
        _ = 2 ^ 53 := by rw [← pow_add]; congr 1; omega
  · have hlead := leading_bounds (p := 53) (by norm_num) (not_le.mp h)
    have hq := divRoundEven_bounds n (n.size - 53)
    simp only [Nat.reduceSub] at hlead
    omega

theorem magnitude_lt {n : ℕ} (hn : n.size ≤ 1000) : magnitude n < 2 ^ 63 := by
  unfold magnitude
  split_ifs with h
  · positivity
  · have := significand_bounds (Nat.pos_of_ne_zero h)
    omega

/-- The value of a magnitude, with the carry of `2 ^ 53` into the exponent. -/
theorem magnitude_value {n : ℕ} (hn : n.size ≤ 1000) {d : BitVec 64}
    (he : expo d = magnitude n / 2 ^ 52) (hf : frac d = magnitude n % 2 ^ 52) :
    truncNat d = roundNat 53 n := by
  rcases Nat.eq_zero_or_pos n with rfl | hpos
  · have he0 : expo d = 0 := by rw [he]; simp [magnitude]
    have hf0 : frac d = 0 := by rw [hf]; simp [magnitude]
    have hsmall : ∀ k, 52 < k → 2 ^ 52 + 0 < 2 ^ k := fun k hk => by
      rw [add_zero]
      exact Nat.pow_lt_pow_right (by norm_num) hk
    rw [truncNat, he0, hf0, if_neg (by norm_num), Nat.div_eq_of_lt (hsmall _ (by norm_num)),
      roundNat_of_size_le (by simp)]
  · have hmag : magnitude n = (n.size + 1022) * 2 ^ 52 + (significand n - 2 ^ 52) := by
      rw [magnitude, if_neg hpos.ne']
    have hsig := significand_bounds hpos
    rw [hmag] at he hf
    rcases Nat.lt_or_eq_of_le hsig.2 with hlt | hcarry
    · have he' : expo d = n.size + 1022 := by omega
      have hf' : 2 ^ 52 + frac d = significand n := by omega
      rw [truncNat, he', hf', significand]
      rcases Nat.lt_or_ge 53 n.size with hbig | hsmall
      · rw [if_neg (not_le.mpr hbig), if_pos (by omega), roundNat,
          show n.size + 1022 - 1075 = n.size - 53 by omega]
      · rw [if_pos hsmall, roundNat_of_size_le hsmall]
        rcases Nat.lt_or_eq_of_le hsmall with hlt' | heq
        · rw [if_neg (by omega), show 1075 - (n.size + 1022) = 53 - n.size by omega]
          exact Nat.mul_div_cancel _ (Nat.two_pow_pos _)
        · rw [if_pos (by omega), heq]
          simp
    · have hbig : 53 < n.size := by
        by_contra hle
        have hsmall : n.size ≤ 53 := not_lt.mp hle
        rw [significand, if_pos hsmall] at hcarry
        have : n * 2 ^ (53 - n.size) < 2 ^ n.size * 2 ^ (53 - n.size) :=
          Nat.mul_lt_mul_of_pos_right (Nat.lt_size_self n) (Nat.two_pow_pos _)
        rw [← pow_add, show n.size + (53 - n.size) = 53 by omega] at this
        omega
      have he' : expo d = n.size + 1023 := by omega
      have hf' : frac d = 0 := by omega
      rw [significand, if_neg (not_le.mpr hbig)] at hcarry
      rw [truncNat, he', hf', if_pos (by omega), roundNat, hcarry, add_zero, ← pow_add, ← pow_add,
        show 52 + (n.size + 1023 - 1075) = 53 + (n.size - 53) by omega]

/-- **Truncating a converted integer gives the rounded integer.** -/
theorem trunc_ofInt {n : ℤ} (hn : n.natAbs.size ≤ 1000) : trunc (ofInt n) = roundInt 53 n := by
  have hlt := magnitude_lt hn
  have hval : (ofInt n).toNat = (if n < 0 then 2 ^ 63 else 0) + magnitude n.natAbs := by
    rw [ofInt, BitVec.toNat_ofNat, Nat.mod_eq_of_lt]
    split_ifs <;> omega
  have he : expo (ofInt n) = magnitude n.natAbs / 2 ^ 52 := by
    rw [expo, hval]
    split_ifs <;> omega
  have hf : frac (ofInt n) = magnitude n.natAbs % 2 ^ 52 := by
    rw [frac, hval]
    split_ifs <;> omega
  have hneg : negative (ofInt n) ↔ n < 0 := by
    rw [negative, hval]
    split_ifs with h
    · exact iff_of_true (by omega) h
    · exact iff_of_false (by omega) h
  rw [trunc, roundInt, magnitude_value hn he hf]
  by_cases h : n < 0
  · rw [if_pos (hneg.mpr h), if_pos h]
  · rw [if_neg (fun hc => h (hneg.mp hc)), if_neg h]

end Binary64
