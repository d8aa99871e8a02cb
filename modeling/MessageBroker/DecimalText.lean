import MessageBroker.WireFormat
import Mathlib.Data.Rat.Floor

/-!
# Numbers as decimal text

How `printf` writes a number with a fixed count of digits behind the point, and what number
such a text stands for.
-/
namespace MessageBroker.DecimalText
open ByteStrings WireFormat

/-- The last `k` decimal digits, zeros in front included. -/
def lastDigits (n : ℕ) : ℕ → Bytes
  | 0 => []
  | k + 1 => byte (Nat.digitChar (n / 10 ^ k % 10)) :: lastDigits n k

/-- `%.*f` of a number given by its sign and its magnitude. -/
def fixed (negative : Bool) (magnitude : ℚ) (digits : ℕ) : Bytes :=
  let scaled := (round (magnitude * 10 ^ digits)).toNat
  (if negative then [byte '-'] else []) ++ decimal (scaled / 10 ^ digits) ++
    if digits = 0 then [] else byte '.' :: lastDigits scaled digits

/-- What a text without its sign stands for, and its count of digits behind the point. -/
def readUnsigned (text : Bytes) : ℚ × ℕ :=
  let fraction := (text.dropWhile (· ≠ byte '.')).tail
  (decimalValue (text.takeWhile (· ≠ byte '.')) + decimalValue fraction / 10 ^ fraction.length,
    fraction.length)

def readDecimal : Bytes → ℚ × ℕ
  | [] => (0, 0)
  | c :: text =>
    if c = byte '-' then (-(readUnsigned text).1, (readUnsigned text).2) else readUnsigned (c :: text)

@[simp] theorem length_lastDigits (n k : ℕ) : (lastDigits n k).length = k := by
  induction k with
  | zero => rfl
  | succ k ih => rw [lastDigits, List.length_cons, ih]

theorem byte_digitChar {d : ℕ} (h : d < 10) : (byte (Nat.digitChar d)).toNat - 48 = d := by
  have hall : ∀ d < 10, (byte (Nat.digitChar d)).toNat - 48 = d := by decide
  exact hall d h

theorem foldl_lastDigits (n k v : ℕ) :
    (lastDigits n k).foldl (fun v d => 10 * v + (d.toNat - 48)) v = v * 10 ^ k + n % 10 ^ k := by
  induction k generalizing v with
  | zero => simp [lastDigits, Nat.mod_one]
  | succ k ih =>
    rw [lastDigits, List.foldl_cons, ih, byte_digitChar (Nat.mod_lt _ (by decide)),
      Nat.mod_pow_succ, pow_succ]
    ring

theorem decimalValue_lastDigits (n k : ℕ) : decimalValue (lastDigits n k) = n % 10 ^ k := by
  rw [decimalValue, foldl_lastDigits, Nat.zero_mul, Nat.zero_add]

theorem isDigit_of_mem_toDigits {n : ℕ} {c : Char} (h : c ∈ Nat.toDigits 10 n) : c.isDigit :=
  Nat.isDigit_of_mem_toDigits (by decide) (by decide) h

theorem toNat_byte {c : Char} (h : c.isDigit) : (byte c).toNat = c.toNat := by
  have hle : c.toNat ≤ 57 := by
    simp only [Char.isDigit, Bool.and_eq_true, decide_eq_true_eq] at h
    exact h.2
  simp only [byte, Nat.toUInt8, UInt8.toNat_ofNat']
  omega

theorem decimalValue_decimal (n : ℕ) : decimalValue (decimal n) = n := by
  have hfold {cs : List Char} (h : ∀ c ∈ cs, c.isDigit) (v : ℕ) :
      (cs.map byte).foldl (fun v d => 10 * v + (d.toNat - 48)) v = Nat.ofDigitChars 10 cs v := by
    induction cs generalizing v with
    | nil => rfl
    | cons c cs ih =>
      rw [List.map_cons, List.foldl_cons, toNat_byte (h c List.mem_cons_self),
        ih (fun d hd => h d (List.mem_cons_of_mem _ hd)), Nat.ofDigitChars_cons]
      rfl
  rw [decimalValue, decimal, hfold (fun c hc => isDigit_of_mem_toDigits hc),
    Nat.ofDigitChars_ten_toDigits]

/-- The text of a number contains neither a sign nor a point. -/
theorem mem_decimal {n : ℕ} {b : UInt8} (h : b ∈ decimal n) : b ≠ byte '-' ∧ b ≠ byte '.' := by
  obtain ⟨c, hc, rfl⟩ := List.mem_map.mp h
  have hdigit := isDigit_of_mem_toDigits hc
  have hnat := toNat_byte hdigit
  simp only [Char.isDigit, Bool.and_eq_true, decide_eq_true_eq] at hdigit
  have hlow : 48 ≤ c.toNat := hdigit.1
  constructor
  · intro he
    rw [he] at hnat
    exact absurd (hnat ▸ hlow) (by decide)
  · intro he
    rw [he] at hnat
    exact absurd (hnat ▸ hlow) (by decide)

theorem decimal_ne_nil (n : ℕ) : decimal n ≠ [] := by
  rw [decimal, ne_eq, List.map_eq_nil_iff]
  exact Nat.toDigits_ne_nil

theorem readUnsigned_point (n : ℕ) (fraction : Bytes) :
    readUnsigned (decimal n ++ byte '.' :: fraction) =
      ((n : ℚ) + decimalValue fraction / 10 ^ fraction.length, fraction.length) := by
  have hdigits : ∀ b ∈ decimal n, decide (b ≠ byte '.') = true := by
    intro b hb
    exact decide_eq_true (mem_decimal hb).2
  rw [readUnsigned, List.takeWhile_append_of_pos hdigits, List.dropWhile_append_of_pos hdigits,
    List.takeWhile_cons_of_neg (by simp), List.dropWhile_cons_of_neg (by simp), List.append_nil,
    decimalValue_decimal]
  rfl

theorem readUnsigned_decimal (n : ℕ) : readUnsigned (decimal n) = ((n : ℚ), 0) := by
  have hdigits : ∀ b ∈ decimal n, decide (b ≠ byte '.') = true := by
    intro b hb
    exact decide_eq_true (mem_decimal hb).2
  rw [readUnsigned, List.takeWhile_eq_self_iff.mpr hdigits, List.dropWhile_eq_nil_iff.mpr hdigits,
    decimalValue_decimal]
  simp [decimalValue]

/-- A sign in front of digits is read as a sign. -/
theorem readDecimal_signed (negative : Bool) (n : ℕ) (rest : Bytes) :
    readDecimal ((if negative then [byte '-'] else []) ++ decimal n ++ rest) =
      ((if negative then -1 else 1) * (readUnsigned (decimal n ++ rest)).1,
        (readUnsigned (decimal n ++ rest)).2) := by
  cases negative with
  | true => simp [readDecimal]
  | false =>
    cases hd : decimal n with
    | nil => exact absurd hd (decimal_ne_nil n)
    | cons c cs =>
      have hc : c ≠ byte '-' := (mem_decimal (hd ▸ List.mem_cons_self)).1
      simp [readDecimal, hc]

/-- A number with that many digits behind the point is printed exactly. -/
theorem readDecimal_fixed (negative : Bool) (n digits : ℕ) :
    readDecimal (fixed negative (n / 10 ^ digits) digits) =
      ((if negative then -1 else 1) * (n / 10 ^ digits : ℚ), digits) := by
  have hpow : (10 : ℚ) ^ digits ≠ 0 := by positivity
  have hscaled : (round ((n : ℚ) / 10 ^ digits * 10 ^ digits)).toNat = n := by
    rw [div_mul_cancel₀ _ hpow, round_natCast, Int.toNat_natCast]
  simp only [fixed, hscaled]
  rw [readDecimal_signed]
  by_cases hzero : digits = 0
  · subst hzero
    rw [if_pos rfl, List.append_nil, readUnsigned_decimal]
    simp
  · rw [if_neg hzero, readUnsigned_point, decimalValue_lastDigits, length_lastDigits]
    have hsplit : (n : ℚ) = (n / 10 ^ digits : ℕ) * 10 ^ digits + (n % 10 ^ digits : ℕ) := by
      have hdiv := Nat.div_add_mod n (10 ^ digits)
      rw [mul_comm] at hdiv
      exact_mod_cast hdiv.symm
    have hvalue : ((n / 10 ^ digits : ℕ) : ℚ) + (n % 10 ^ digits : ℕ) / 10 ^ digits =
        n / 10 ^ digits := by
      rw [hsplit]
      field_simp
    rw [hvalue]

end MessageBroker.DecimalText
