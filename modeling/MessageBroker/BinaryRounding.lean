import MessageBroker.SignificandRounding
import Mathlib.Algebra.Order.Round
import Mathlib.Data.Int.Log
import Mathlib.Data.Rat.Floor
import Mathlib.Tactic.FieldSimp
import Mathlib.Tactic.Positivity

/-!
# Rounding a quotient to binary floating point

A nonnegative number is rounded to the nearest one with `p` significant bits, the even one of
two. The exponent has no bound, so that this is the arithmetic of a binary format as long as a
result is in its normal range.
-/
namespace MessageBroker.BinaryRounding
open SignificandRounding

/-- The nearest whole number, the even one of two. -/
def nearestEven (x : ℚ) : ℤ :=
  if 1 < 2 * Int.fract x ∨ 2 * Int.fract x = 1 ∧ ⌊x⌋ % 2 = 1 then ⌊x⌋ + 1 else ⌊x⌋

/-- The unit in the last place: how far the numbers with `p` significant bits around `x` are
apart. -/
def ulp (p : ℕ) (x : ℚ) : ℚ := 2 ^ (Int.log 2 x + 1 - p)

def roundTo (p : ℕ) (x : ℚ) : ℚ := nearestEven (x / ulp p x) * ulp p x

variable {p : ℕ} {x : ℚ}

theorem ulp_pos (p : ℕ) (x : ℚ) : 0 < ulp p x := zpow_pos (by norm_num) _

@[simp] theorem nearestEven_intCast (z : ℤ) : nearestEven z = z := by
  simp [nearestEven]

theorem abs_nearestEven_sub (x : ℚ) : |nearestEven x - x| ≤ 1 / 2 := by
  have hsplit := Int.floor_add_fract x
  have hlow := Int.fract_nonneg x
  have hhigh := Int.fract_lt_one x
  rw [abs_le]
  simp only [nearestEven]
  split_ifs with hup
  · have hhalf : 1 ≤ 2 * Int.fract x := by
      rcases hup with h | h
      · exact h.le
      · exact h.1.ge
    push_cast
    constructor <;> linarith
  · have hhalf : 2 * Int.fract x ≤ 1 := le_of_not_gt fun h => hup (.inl h)
    constructor <;> linarith

/-- One unit is at most twice the relative precision. -/
theorem ulp_le (p : ℕ) (hx : 0 < x) : ulp p x ≤ 2 * (x / 2 ^ p) := by
  have hlog := Int.zpow_log_le_self (b := 2) (by decide) hx
  have hulp : ulp p x = 2 * (2 ^ Int.log 2 x / 2 ^ p) := by
    rw [ulp, zpow_sub₀ (by norm_num), zpow_add_one₀ (by norm_num), zpow_natCast]
    ring
  rw [hulp]
  gcongr
  exact_mod_cast hlog

theorem abs_roundTo_sub_le_ulp (p : ℕ) (x : ℚ) : |roundTo p x - x| ≤ ulp p x / 2 := by
  have hunit := ulp_pos p x
  have hscale : roundTo p x - x = (nearestEven (x / ulp p x) - x / ulp p x) * ulp p x := by
    rw [roundTo, sub_mul, div_mul_cancel₀ _ hunit.ne']
  calc |roundTo p x - x| = |nearestEven (x / ulp p x) - x / ulp p x| * ulp p x := by
        rw [hscale, abs_mul, abs_of_pos hunit]
    _ ≤ 1 / 2 * ulp p x := by
        gcongr
        exact abs_nearestEven_sub _
    _ = ulp p x / 2 := by ring

/-- The relative error is at most `2 ^ -p`. -/
theorem abs_roundTo_sub (p : ℕ) (hx : 0 ≤ x) : |roundTo p x - x| ≤ x / 2 ^ p := by
  rcases hx.eq_or_lt with rfl | hpos
  · simp [roundTo, nearestEven]
  · have hunit := ulp_le p hpos
    have hhalf := abs_roundTo_sub_le_ulp p x
    linarith

theorem round_of_near {n : ℤ} (h : |x - n| < 1 / 2) : round x = n := by
  rw [abs_lt] at h
  rw [round_eq_iff, Set.mem_Ico]
  constructor <;> linarith

theorem nearestEven_div (n : ℕ) {d : ℕ} (hd : 0 < d) :
    nearestEven (n / d) =
      (if d < 2 * (n % d) ∨ 2 * (n % d) = d ∧ n / d % 2 = 1 then n / d + 1 else n / d : ℕ) := by
  have hdpos : (0 : ℚ) < d := by exact_mod_cast hd
  have hfloor : ⌊(n / d : ℚ)⌋ = (n / d : ℕ) := Rat.floor_natCast_div_natCast n d
  have hfract : 2 * Int.fract (n / d : ℚ) = (2 * (n % d) : ℕ) / d := by
    rw [Int.fract_div_natCast_eq_div_natCast_mod]
    push_cast
    ring
  have habove : 1 < 2 * Int.fract (n / d : ℚ) ↔ d < 2 * (n % d) := by
    rw [hfract, one_lt_div hdpos, Nat.cast_lt]
  have htie : 2 * Int.fract (n / d : ℚ) = 1 ↔ 2 * (n % d) = d := by
    rw [hfract, div_eq_one_iff_eq hdpos.ne', Nat.cast_inj]
  have hodd : ⌊(n / d : ℚ)⌋ % 2 = 1 ↔ n / d % 2 = 1 := by
    rw [hfloor]
    omega
  simp only [nearestEven, habove, htie, hodd]
  rw [hfloor, Nat.cast_ite, Nat.cast_succ]

theorem size_eq_log {n : ℕ} (hn : n ≠ 0) : n.size = Nat.log 2 n + 1 := by
  apply le_antisymm
  · exact Nat.size_le.mpr (Nat.lt_pow_succ_log_self (by decide) n)
  · exact Nat.lt_size.mpr (Nat.pow_log_le_self 2 hn)

/-- On whole numbers this is the rounding of the significand. -/
theorem roundTo_natCast (p n : ℕ) : roundTo p n = roundNearest p n := by
  rcases eq_or_ne n 0 with rfl | hn
  · simp [roundTo, nearestEven, roundNearest]
  have hunit : ulp p n = 2 ^ ((n.size : ℤ) - p) := by
    rw [ulp, Int.log_natCast, size_eq_log hn]
    push_cast
    rfl
  by_cases hfits : n.size ≤ p
  · -- the unit divides one
    obtain ⟨k, hk⟩ := Nat.exists_eq_add_of_le hfits
    have hexact : (n : ℚ) / ulp p n = ((n * 2 ^ k : ℕ) : ℤ) := by
      rw [hunit, show (n.size : ℤ) - p = -k by omega, zpow_neg, zpow_natCast, div_inv_eq_mul]
      push_cast
      rfl
    have hself : roundNearest p n = n := by
      simp [roundNearest, Nat.sub_eq_zero_of_le hfits, Nat.mod_one]
    rw [roundTo, hexact, nearestEven_intCast, ← hexact, div_mul_cancel₀ _ (ulp_pos p n).ne', hself]
  · have hexcess : ulp p n = (2 ^ (n.size - p) : ℕ) := by
      rw [hunit, show (n.size : ℤ) - p = (n.size - p : ℕ) by omega, zpow_natCast]
      push_cast
      rfl
    rw [roundTo, hexcess, nearestEven_div n (by positivity)]
    simp only [roundNearest]
    split_ifs <;> push_cast <;> rfl

end MessageBroker.BinaryRounding
