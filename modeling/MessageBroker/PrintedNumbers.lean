import MessageBroker.BinaryRounding
import MessageBroker.NumberDisplay

/-!
# The numbers a subscriber prints

The divisions of `parse_notification` in the arithmetic of `float` and `double`, and a `pow`
that is off by up to a unit in the last place. None of it reaches the text: the digits printed
are those of exact arithmetic. The numbers are far inside the normal range of both formats.
-/
namespace MessageBroker.PrintedNumbers
open ByteStrings WireFormat PacketFraming PacketReceipt
open Notification NotificationLayout HandlerOutcomes NotificationDisplay NotificationBlock
open DecimalText SignificandRounding BinaryRounding NumberDisplay

def printedShortReal (payload : Bytes) : Bytes :=
  let num := ntohs (word16 payload 0)
  let tmp := roundTo 24 (roundTo 24 num / 100)
  fixed false tmp 2

/-- The conversion of a `float` to a `double` is exact. -/
def printedFloat (pow : ℕ → ℕ → ℚ) (payload : Bytes) : Bytes :=
  let sgn := payload.getD 0 0
  let num := ntohl (word32 payload 1)
  let exp := (payload.getD 5 0).toNat
  let floatValue := roundTo 24 num
  let offset := pow 10 exp
  let result := roundTo 53 (floatValue / offset)
  fixed (sgn = 1) result exp

def printedLine (pow : ℕ → ℕ → ℚ) (n : Notice) : Bytes :=
  if n.type = typeInt then ascii "INT - " ++ signedDecimal (intArgument n.value) ++ ascii "\n"
  else if n.type = typeShortReal then ascii "SHORT_REAL - " ++ printedShortReal n.value ++ ascii "\n"
  else if n.type = typeFloat then ascii "FLOAT - " ++ printedFloat pow n.value ++ ascii "\n"
  else if n.type = typeString then ascii "STRING - " ++ n.value ++ ascii "\n"
  else []

/-- The powers of ten that an exponent of one byte can ask for are off by at most a unit in the
last place of a `double`. -/
def PowAccurate (pow : ℕ → ℕ → ℚ) : Prop :=
  ∀ e < 256, |pow 10 e - 10 ^ e| ≤ ulp 53 (10 ^ e)

/-- The text of a number is decided by the whole number that it is nearest to in units of the
last digit. -/
theorem fixed_of_near {x : ℚ} {n digits : ℕ} (negative : Bool) (h : |x * 10 ^ digits - n| < 1 / 2) :
    fixed negative x digits = fixed negative (n / 10 ^ digits) digits := by
  have hnear : round (x * 10 ^ digits) = n := by
    apply round_of_near
    exact_mod_cast h
  have hexact : round ((n / 10 ^ digits : ℚ) * 10 ^ digits) = n := by
    rw [div_mul_cancel₀ _ (by positivity), round_natCast]
  simp only [fixed, hnear, hexact]

private theorem ntohs_lt (n : ℕ) : ntohs n < 2 ^ 16 := by
  simp only [ntohs]
  omega

private theorem ntohl_lt (n : ℕ) : ntohl n < 2 ^ 32 := by
  simp only [ntohl]
  omega

/-- The rounding of a `uint32_t` to a `float`. -/
theorem roundTo_le {m : ℕ} (hm : m < 2 ^ 32) : roundTo 24 m ≤ 2 ^ 33 := by
  have hlt : (m : ℚ) < 2 ^ 32 := by exact_mod_cast hm
  have herr := (abs_le.mp (abs_roundTo_sub 24 (show (0 : ℚ) ≤ m by positivity))).2
  linarith

/-- The quotient of a `float` is off by less than half a hundredth. -/
theorem shortReal_near {m : ℕ} (hm : m < 2 ^ 16) :
    |roundTo 24 (roundTo 24 m / 100) * 10 ^ 2 - m| < 1 / 2 := by
  have hexact : roundTo 24 m = m := by
    rw [roundTo_natCast, Nat.cast_inj, roundNearest_eq_self_iff (by decide)]
    exact ⟨m, 0, by omega, by omega⟩
  have hlt : (m : ℚ) < 2 ^ 16 := by exact_mod_cast hm
  have herr := abs_roundTo_sub 24 (show (0 : ℚ) ≤ m / 100 by positivity)
  rw [hexact]
  have hsplit : roundTo 24 (m / 100) * 10 ^ 2 - m = (roundTo 24 (m / 100) - m / 100) * 100 := by
    ring
  calc |roundTo 24 (m / 100) * 10 ^ 2 - m| = |roundTo 24 (m / 100) - m / 100| * 100 := by
        rw [hsplit, abs_mul, abs_of_pos (show (0 : ℚ) < 100 by norm_num)]
    _ ≤ m / 100 / 2 ^ 24 * 100 := by gcongr
    _ < 1 / 2 := by linarith

private theorem pow_between {pow : ℕ → ℕ → ℚ} (hpow : PowAccurate pow) {e : ℕ} (he : e < 256) :
    (10 : ℚ) ^ e / 2 ≤ pow 10 e ∧ pow 10 e ≤ 2 * 10 ^ e := by
  have hten : (0 : ℚ) < 10 ^ e := by positivity
  have hoff := abs_le.mp ((hpow e he).trans (ulp_le 53 hten))
  constructor <;> linarith

/-- No quotient leaves the range in which a `double` has its full significand. -/
theorem quotient_normal {pow : ℕ → ℕ → ℚ} (hpow : PowAccurate pow) {f : ℚ} (hf : 1 ≤ f)
    (hle : f ≤ 2 ^ 33) {e : ℕ} (he : e < 256) :
    1 / 2 ^ 1021 ≤ f / pow 10 e ∧ f / pow 10 e ≤ 2 ^ 34 := by
  obtain ⟨hlow, hhigh⟩ := pow_between hpow he
  have hone : (1 : ℚ) ≤ 10 ^ e := one_le_pow₀ (by norm_num)
  have htop : (10 : ℚ) ^ e ≤ 2 ^ 1020 := by
    calc (10 : ℚ) ^ e ≤ 16 ^ e := by
          gcongr
          norm_num
      _ ≤ 16 ^ 255 := pow_le_pow_right₀ (by norm_num) (by omega)
      _ = 2 ^ 1020 := by rw [show (16 : ℚ) = 2 ^ 4 by norm_num, ← pow_mul]
  have hpos : 0 < pow 10 e := by linarith
  constructor
  · have hbound : pow 10 e ≤ 2 ^ 1021 := by
      rw [pow_succ']
      exact hhigh.trans (mul_le_mul_of_nonneg_left htop (by norm_num))
    gcongr
  · calc f / pow 10 e ≤ 2 ^ 33 / (1 / 2) := by
          gcongr
          linarith
      _ = 2 ^ 34 := by norm_num

/-- The quotient of two `double`s is off by less than half a unit of the last digit. -/
theorem float_near {pow : ℕ → ℕ → ℚ} (hpow : PowAccurate pow) {f : ℚ} (hf : 0 ≤ f)
    (hle : f ≤ 2 ^ 33) {e : ℕ} (he : e < 256) :
    |roundTo 53 (f / pow 10 e) * 10 ^ e - f| < 1 / 2 := by
  have hten : (0 : ℚ) < 10 ^ e := by positivity
  have hoff : |pow 10 e - 10 ^ e| ≤ 2 * (10 ^ e / 2 ^ 53) := (hpow e he).trans (ulp_le 53 hten)
  have hhalf := (pow_between hpow he).1
  generalize pow 10 e = offset at hoff hhalf ⊢
  generalize (10 : ℚ) ^ e = ten at hten hoff hhalf ⊢
  have hpos : 0 < offset := by linarith
  have hquotient : f / offset ≤ 2 * (f / ten) := by
    calc f / offset ≤ f / (ten / 2) := by gcongr
      _ = 2 * (f / ten) := by
        field_simp
  have hround : |roundTo 53 (f / offset) - f / offset| ≤ 2 * (f / ten) / 2 ^ 53 :=
    (abs_roundTo_sub 53 (by positivity)).trans (by gcongr)
  have hsplit : roundTo 53 (f / offset) * ten - f =
      (roundTo 53 (f / offset) - f / offset) * ten + f / offset * (ten - offset) := by
    field_simp
    ring
  calc |roundTo 53 (f / offset) * ten - f|
      ≤ |roundTo 53 (f / offset) - f / offset| * ten + f / offset * |ten - offset| := by
        rw [hsplit]
        refine (abs_add_le _ _).trans ?_
        rw [abs_mul, abs_mul, abs_of_pos hten, abs_of_nonneg (div_nonneg hf hpos.le)]
    _ ≤ 2 * (f / ten) / 2 ^ 53 * ten + 2 * (f / ten) * (2 * (ten / 2 ^ 53)) := by
        rw [abs_sub_comm ten]
        gcongr
    _ = f * (6 / 2 ^ 53) := by
        field_simp
        ring
    _ < 1 / 2 := by linarith

private theorem printedShortReal_eq (payload : Bytes) :
    printedShortReal payload = shortRealText payload := by
  simp only [printedShortReal, shortRealText]
  rw [fixed_of_near false (shortReal_near (ntohs_lt _))]
  norm_num

private theorem printedFloat_eq {pow : ℕ → ℕ → ℚ} (hpow : PowAccurate pow) (payload : Bytes) :
    printedFloat pow payload = floatText payload := by
  have hle := roundTo_le (ntohl_lt (word32 payload 1))
  simp only [printedFloat, floatText]
  rw [roundTo_natCast] at hle ⊢
  exact fixed_of_near _ (float_near hpow (Nat.cast_nonneg _) hle (UInt8.toNat_lt _))

private theorem printedLine_eq {pow : ℕ → ℕ → ℚ} (hpow : PowAccurate pow) (n : Notice) :
    printedLine pow n = valueLine n := by
  simp only [printedLine, valueLine, printedShortReal_eq, printedFloat_eq hpow]

/-- Every subscriber that receives the datagram prints a text for `q` with that many digits behind
the point. -/
def Prints (pow : ℕ → ℕ → ℚ) (src : SockAddrIn) (data : Bytes) (heap : Memory) (label : Bytes)
    (q : ℚ) (digits : ℕ) : Prop :=
  ∀ packet rest ret m rest', buildNotification (received data) heap src = .ok packet →
    Receives (recvTcpPacket (fun _ => 0)) (frame packet ++ rest) ret m rest' →
    ∃ notice text, parseNotification m maxLen = .ok notice ∧
      printedLine pow notice = label ++ text ++ ascii "\n" ∧ readDecimal text = (q, digits)

private theorem prints_iff_shows {pow : ℕ → ℕ → ℚ} (hpow : PowAccurate pow) (src : SockAddrIn)
    (data : Bytes) (heap : Memory) (label : Bytes) (q : ℚ) (digits : ℕ) :
    Prints pow src data heap label q digits ↔ Shows src data heap label q digits := by
  simp only [Prints, Shows, printedLine_eq hpow]

private theorem ntohs_word16 (high low : UInt8) :
    ntohs (word16 [high, low] 0) = 256 * high.toNat + low.toNat := by
  have hhigh := high.toNat_lt
  have hlow := low.toNat_lt
  simp only [ntohs, word16, List.getD_cons_zero, List.getD_cons_succ]
  omega

private theorem shows_shortReal (src : SockAddrIn) (heap : Memory) {topic : Bytes}
    (htopic : topic.length = 50) (high low : UInt8) (rest : Bytes) :
    Shows src (datagram topic typeShortReal [high, low] rest) heap (ascii "SHORT_REAL - ")
      ((256 * high.toNat + low.toNat : ℕ) / 100) 2 := by
  have hlen : copyLen typeShortReal = some [high, low].length := rfl
  obtain ⟨htype, hvalue⟩ := datagram_fields rest htopic hlen (by decide)
  generalize datagram topic typeShortReal [high, low] rest = data at htype hvalue ⊢
  have known : (copyLen (datagramType data)).isSome := by
    rw [htype]
    rfl
  have hline (notice : Notice) (hnt : notice.type = datagramType data)
      (hnv : notice.value = datagramValue data) : valueLine notice =
        ascii "SHORT_REAL - " ++ shortRealText [high, low] ++ ascii "\n" := by
    rw [valueLine, hnt, hnv, htype, hvalue, if_neg (by decide), if_pos rfl]
  have hread := readDecimal_fixed false (256 * high.toNat + low.toNat) 2
  rw [shows_iff src heap known hline, shortRealText, ntohs_word16]
  norm_num at hread ⊢
  exact hread

/-- In the arithmetic of the machine, a `SHORT_REAL` is printed as it was sent, and a `FLOAT`
exactly if its mantissa fits the significand of a `float`: the divisions lose nothing that is
printed. -/
theorem numbers_printed {pow : ℕ → ℕ → ℚ} (hpow : PowAccurate pow) (src : SockAddrIn)
    (heap : Memory) {topic : Bytes} (htopic : topic.length = 50) (rest : Bytes) :
    (∀ high low : UInt8, Prints pow src (datagram topic typeShortReal [high, low] rest) heap
      (ascii "SHORT_REAL - ") ((256 * high.toNat + low.toNat : ℕ) / 100) 2) ∧
    (∀ s e : UInt8, s = 0 ∨ s = 1 → ∀ m n : ℕ, m < 2 ^ 32 →
      (Prints pow src (datagram topic typeFloat (s :: be32 m ++ [e]) rest) heap
        (ascii "FLOAT - ") ((-1) ^ s.toNat * n / 10 ^ e.toNat) e.toNat ↔ roundNearest 24 m = n)) ∧
    ∀ notice, printedLine pow notice = valueLine notice := by
  refine ⟨?_, ?_, printedLine_eq hpow⟩
  · intro high low
    rw [prints_iff_shows hpow]
    exact shows_shortReal src heap htopic high low rest
  · intro s e hs m n hm
    rw [prints_iff_shows hpow]
    exact shows_float_iff src heap htopic hs hm e rest n

/-- The rounded power is within half a unit. -/
theorem powAccurate_rounded : PowAccurate fun b e => roundTo 53 (b ^ e) := by
  intro e _
  have hunit := ulp_pos 53 (10 ^ e)
  have hhalf := abs_roundTo_sub_le_ulp 53 (10 ^ e)
  push_cast
  linarith

theorem numbers_printed_rounded : Prints (fun b e => roundTo 53 (b ^ e)) sampleSender
    (datagram (List.replicate 50 97) typeShortReal [255, 225] []) (fun _ => 0)
    (ascii "SHORT_REAL - ") ((256 * (255 : UInt8).toNat + (225 : UInt8).toNat : ℕ) / 100) 2 :=
  (numbers_printed powAccurate_rounded sampleSender _ (by decide) []).1 255 225

end MessageBroker.PrintedNumbers
