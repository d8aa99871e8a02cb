import Mathlib.Data.Nat.Size
import Mathlib.Algebra.Order.Ring.Int
import Mathlib.Tactic.Linarith
import Mathlib.Tactic.Ring

/-!
# Rounding to a bounded number of significant bits

A number with more than `p` bits is rounded to the nearest one that has at most `p`
significant bits. Between two neighbours the one with an even significand is taken.
-/
namespace MessageBroker.SignificandRounding

/-- At most `p` significant bits, and an exponent without a bound. -/
def Representable (p n : ℕ) : Prop := ∃ m j, m < 2 ^ p ∧ n = m * 2 ^ j

/-- The significand of `n`, and in front of it the low bits that do not fit. -/
def roundNearest (p n : ℕ) : ℕ :=
  let excess := n.size - p
  let quotient := n / 2 ^ excess
  let remainder := n % 2 ^ excess
  if 2 ^ excess < 2 * remainder ∨ 2 * remainder = 2 ^ excess ∧ quotient % 2 = 1 then
    (quotient + 1) * 2 ^ excess
  else quotient * 2 ^ excess

variable {p n : ℕ}

theorem quotient_lt (p n : ℕ) : n / 2 ^ (n.size - p) < 2 ^ p := by
  rw [Nat.div_lt_iff_lt_mul (by positivity), ← pow_add]
  have hpow : 2 ^ n.size ≤ 2 ^ (p + (n.size - p)) := Nat.pow_le_pow_right (by decide) (by omega)
  exact (Nat.lt_size_self n).trans_le hpow

/-- The result is one of the two multiples of `2 ^ excess` around the number. -/
theorem roundNearest_cases (p n : ℕ) :
    roundNearest p n = n / 2 ^ (n.size - p) * 2 ^ (n.size - p) ∨
      roundNearest p n = (n / 2 ^ (n.size - p) + 1) * 2 ^ (n.size - p) := by
  simp only [roundNearest]
  split_ifs
  · exact .inr rfl
  · exact .inl rfl

theorem representable_roundNearest (hp : 0 < p) (n : ℕ) : Representable p (roundNearest p n) := by
  have hlt := quotient_lt p n
  rcases roundNearest_cases p n with h | h
  · exact ⟨_, _, hlt, h⟩
  · by_cases hfull : n / 2 ^ (n.size - p) + 1 = 2 ^ p
    · -- the carry out of the significand moves to the exponent
      refine ⟨1, p + (n.size - p), Nat.one_lt_two_pow (by omega), ?_⟩
      rw [h, hfull, one_mul, pow_add]
    · exact ⟨_, _, by omega, h⟩

/-- A representable number that is not below the significand is a multiple of `2 ^ excess`. -/
theorem dvd_of_representable (hp : 0 < p) {x : ℕ} (h : Representable p x)
    (hx : n / 2 ^ (n.size - p) * 2 ^ (n.size - p) ≤ x) : 2 ^ (n.size - p) ∣ x := by
  obtain ⟨m, j, hm, rfl⟩ := h
  by_cases hfits : n.size ≤ p
  · rw [Nat.sub_eq_zero_of_le hfits]
    exact one_dvd _
  · apply Dvd.dvd.mul_left
    apply pow_dvd_pow
    by_contra hj
    have htop : 2 ^ (p - 1 + (n.size - p)) ≤ n := Nat.lt_size.mp (by omega)
    have hquotient : 2 ^ (p - 1) ≤ n / 2 ^ (n.size - p) := by
      rw [Nat.le_div_iff_mul_le (by positivity), ← pow_add]
      exact htop
    have hlow : 2 ^ (p - 1) * 2 ^ (n.size - p) ≤ m * 2 ^ j :=
      (Nat.mul_le_mul_right _ hquotient).trans hx
    have hhigh : m * 2 ^ j < 2 ^ p * 2 ^ j := Nat.mul_lt_mul_of_pos_right hm (by positivity)
    rw [← pow_add] at hlow hhigh
    have hpow : 2 ^ (p + j) ≤ 2 ^ (p - 1 + (n.size - p)) :=
      Nat.pow_le_pow_right (by decide) (by omega)
    exact absurd (hlow.trans_lt (hhigh.trans_le hpow)) (lt_irrefl _)

/-- No representable number is strictly between the two multiples around the number. -/
theorem outside_of_representable (hp : 0 < p) (n : ℕ) {x : ℕ} (h : Representable p x) :
    x ≤ n / 2 ^ (n.size - p) * 2 ^ (n.size - p) ∨
      (n / 2 ^ (n.size - p) + 1) * 2 ^ (n.size - p) ≤ x := by
  by_contra hbetween
  obtain ⟨hlow, hhigh⟩ := not_or.mp hbetween
  obtain ⟨c, rfl⟩ := dvd_of_representable hp h (not_le.mp hlow).le
  rw [mul_comm _ c] at hlow hhigh
  have hlow' := lt_of_mul_lt_mul_right (not_le.mp hlow) (Nat.zero_le _)
  have hhigh' := lt_of_mul_lt_mul_right (not_le.mp hhigh) (Nat.zero_le _)
  omega

/-- No representable number is nearer. -/
theorem roundNearest_nearest (hp : 0 < p) (n : ℕ) {x : ℕ} (h : Representable p x) :
    |(n : ℤ) - roundNearest p n| ≤ |(n : ℤ) - x| := by
  have hout := outside_of_representable hp n h
  have hdiv := Nat.div_add_mod n (2 ^ (n.size - p))
  have hrem := Nat.mod_lt n (show 0 < 2 ^ (n.size - p) by positivity)
  rw [mul_comm] at hdiv
  rw [add_mul, one_mul] at hout
  simp only [roundNearest, add_mul, one_mul]
  split_ifs with hup
  · rw [abs_of_nonpos (by omega)]
    rcases hout with hle | hge
    · rw [abs_of_nonneg (by omega)]
      omega
    · rw [abs_of_nonpos (by omega)]
      omega
  · rw [abs_of_nonneg (by omega)]
    rcases hout with hle | hge
    · rw [abs_of_nonneg (by omega)]
      omega
    · rw [abs_of_nonpos (by omega)]
      omega

theorem roundNearest_eq_self_iff (hp : 0 < p) : roundNearest p n = n ↔ Representable p n := by
  constructor
  · intro h
    have hrep := representable_roundNearest hp n
    rwa [h] at hrep
  · intro h
    have hnear := roundNearest_nearest hp n h
    rw [sub_self, abs_zero, abs_nonpos_iff] at hnear
    omega

end MessageBroker.SignificandRounding
