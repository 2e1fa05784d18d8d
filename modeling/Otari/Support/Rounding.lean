import Mathlib

/-!
# Support — Rounding — half-up quantization of decimals

A decimal amount is a rational; `quantize places` rounds it to a number of decimal places, a half
going away from zero.  Rounding keeps the order (`quantize_mono`) and the sign (`quantize_nonneg`), so a
bound on exact amounts is a bound on the rounded ones.
-/

namespace Rounding

/-- The integer nearest to `q`, a half rounded away from zero. -/
def halfUp (q : ℚ) : ℤ :=
  if 0 ≤ q then ⌊q + 1 / 2⌋ else -⌊-q + 1 / 2⌋

/-- `q` rounded half-up to `places` decimal places. -/
def quantize (places : ℕ) (q : ℚ) : ℚ :=
  halfUp (q * 10 ^ places) / 10 ^ places

variable {q : ℚ}

theorem halfUp_of_nonneg (h : 0 ≤ q) : halfUp q = ⌊q + 1 / 2⌋ :=
  if_pos h

theorem halfUp_nonneg (h : 0 ≤ q) : 0 ≤ halfUp q := by
  rw [halfUp_of_nonneg h]
  exact Int.floor_nonneg.mpr (by linarith)

theorem halfUp_nonpos (h : q < 0) : halfUp q ≤ 0 := by
  rw [halfUp, if_neg (not_le.mpr h), neg_nonpos]
  exact Int.floor_nonneg.mpr (by linarith)

@[simp] theorem halfUp_intCast (n : ℤ) : halfUp n = n := by
  unfold halfUp
  split
  · rw [Int.floor_intCast_add]; norm_num
  · rw [← Int.cast_neg, Int.floor_intCast_add]; norm_num

theorem halfUp_mono : Monotone halfUp := by
  intro a b h
  rcases lt_or_ge a 0 with ha | ha
  · rcases lt_or_ge b 0 with hb | hb
    · rw [halfUp, halfUp, if_neg (not_le.mpr ha), if_neg (not_le.mpr hb), neg_le_neg_iff]
      exact Int.floor_le_floor (by linarith)
    · exact (halfUp_nonpos ha).trans (halfUp_nonneg hb)
  · rw [halfUp_of_nonneg ha, halfUp_of_nonneg (ha.trans h)]
    exact Int.floor_le_floor (by linarith)

/-- **Rounding keeps the order**, so an exact bound is still a bound once both sides are rounded. -/
theorem quantize_mono (places : ℕ) : Monotone (quantize places) := by
  intro a b h
  have hs : (0 : ℚ) < 10 ^ places := by positivity
  have hab : halfUp (a * 10 ^ places) ≤ halfUp (b * 10 ^ places) :=
    halfUp_mono (mul_le_mul_of_nonneg_right h hs.le)
  exact div_le_div_of_nonneg_right (Int.cast_le.mpr hab) hs.le

/-- The integer nearest to `q`, a half rounded to the even neighbour. -/
def halfEven (q : ℚ) : ℤ :=
  if q - ⌊q⌋ < 1 / 2 ∨ (q - ⌊q⌋ = 1 / 2 ∧ Even ⌊q⌋) then ⌊q⌋ else ⌊q⌋ + 1

/-- `q` rounded half-even to `places` decimal places. -/
def quantizeEven (places : ℕ) (q : ℚ) : ℚ :=
  halfEven (q * 10 ^ places) / 10 ^ places

/-- `q` has no more than `places` decimal places. -/
def AtScale (places : ℕ) (q : ℚ) : Prop :=
  ∃ n : ℤ, q * 10 ^ places = n

@[simp] theorem halfEven_intCast (n : ℤ) : halfEven n = n := by
  unfold halfEven
  rw [Int.floor_intCast, sub_self, if_pos (.inl (by norm_num))]

theorem quantizeEven_of_atScale {places : ℕ} (h : AtScale places q) :
    quantizeEven places q = q := by
  obtain ⟨n, hn⟩ := h
  have hs : (10 : ℚ) ^ places ≠ 0 := by positivity
  rw [quantizeEven, hn, halfEven_intCast, ← hn, mul_div_cancel_right₀ _ hs]

/-- `q` to this many significant digits, a half rounded to the even one. -/
def significant (digits : ℕ) (q : ℚ) : ℚ :=
  let unit : ℚ := 10 ^ (Int.log 10 |q| + 1 - digits)
  halfEven (q / unit) * unit

/-! ### Doubles -/

/-- The distance between the doubles about `q`. -/
def ulp (q : ℚ) : ℚ := 2 ^ max (Int.log 2 |q| - 52) (-1074)

/-- The double nearest to `q`, a half rounded to the even one, for a `q` within their range. -/
def double (q : ℚ) : ℚ := halfEven (q / ulp q) * ulp q

end Rounding
