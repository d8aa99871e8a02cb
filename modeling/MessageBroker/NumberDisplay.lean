import MessageBroker.DecimalText
import MessageBroker.NotificationDisplay
import MessageBroker.SignificandRounding

/-!
# The numbers a subscriber shows

What `parse_notification` computes from the bytes of a value and prints behind the line for
the topic. Divisions and the printing of digits are exact; the conversion of a `uint32_t` to
`float` is not.
-/
namespace MessageBroker.NumberDisplay
open ByteStrings WireFormat ServerStops PacketFraming PacketReceipt
open Notification NotificationLayout HandlerOutcomes NotificationDisplay NotificationBlock
open DecimalText SignificandRounding

/-- The bytes of a word in reverse. -/
def ntohl (n : ℕ) : ℕ :=
  n % 256 * 256 ^ 3 + n / 256 % 256 * 256 ^ 2 + n / 256 ^ 2 % 256 * 256 + n / 256 ^ 3 % 256

def ntohs (n : ℕ) : ℕ := n % 256 * 256 + n / 256 % 256

def word32 (payload : Bytes) (off : ℕ) : ℕ :=
  readLE32 (payload.getD off 0) (payload.getD (off + 1) 0) (payload.getD (off + 2) 0)
    (payload.getD (off + 3) 0)

def word16 (payload : Bytes) (off : ℕ) : ℕ :=
  (payload.getD off 0).toNat + 256 * (payload.getD (off + 1) 0).toNat

/-- The argument of the `%d`. -/
def intArgument (payload : Bytes) : ℤ :=
  let sgn := payload.getD 0 0
  let num := ntohl (word32 payload 1)
  let num := if sgn = 1 then (2 ^ 32 - num) % 2 ^ 32 else num
  int32 num

def shortRealText (payload : Bytes) : Bytes :=
  let num := ntohs (word16 payload 0)
  fixed false (num / 100) 2

/-- A `float` has a significand of 24 bits. -/
def floatText (payload : Bytes) : Bytes :=
  let sgn := payload.getD 0 0
  let num := ntohl (word32 payload 1)
  let exp := (payload.getD 5 0).toNat
  let floatValue := roundNearest 24 num
  let offset : ℚ := 10 ^ exp
  fixed (sgn = 1) (floatValue / offset) exp

/-- The `switch` has no case for other types. -/
def valueLine (n : Notice) : Bytes :=
  if n.type = typeInt then ascii "INT - " ++ signedDecimal (intArgument n.value) ++ ascii "\n"
  else if n.type = typeShortReal then ascii "SHORT_REAL - " ++ shortRealText n.value ++ ascii "\n"
  else if n.type = typeFloat then ascii "FLOAT - " ++ floatText n.value ++ ascii "\n"
  else if n.type = typeString then ascii "STRING - " ++ n.value ++ ascii "\n"
  else []

/-- A word in network order, most significant byte first. -/
def be32 (n : ℕ) : Bytes := (le32 n).reverse

@[simp] theorem length_be32 (n : ℕ) : (be32 n).length = 4 := rfl

private theorem ntohl_readLE32 (b0 b1 b2 b3 : UInt8) :
    ntohl (readLE32 b0 b1 b2 b3) = readLE32 b3 b2 b1 b0 := by
  have h0 := b0.toNat_lt
  have h1 := b1.toNat_lt
  have h2 := b2.toNat_lt
  have h3 := b3.toNat_lt
  simp only [ntohl, readLE32]
  omega

private theorem ntohl_word32 {n : ℕ} (h : n < 2 ^ 32) (s : UInt8) (rest : Bytes) :
    ntohl (word32 (s :: be32 n ++ rest) 1) = n :=
  (ntohl_readLE32 _ _ _ _).trans (readLE32_le32 n h)

private theorem intArgument_eq {s : UInt8} {m : ℕ} (hm : m < 2 ^ 32) :
    intArgument (s :: be32 m) = int32 (if s = 1 then (2 ^ 32 - m) % 2 ^ 32 else m) := by
  have hword := ntohl_word32 hm s []
  rw [List.append_nil] at hword
  simp only [intArgument, hword]
  rfl

/-- The argument is exact as long as the signed type can hold the number. -/
theorem intArgument_eq_iff {s : UInt8} (hs : s = 0 ∨ s = 1) {m : ℕ} (hm : m < 2 ^ 32) :
    intArgument (s :: be32 m) = (-1) ^ s.toNat * m ↔ m < 2 ^ 31 + s.toNat := by
  rw [intArgument_eq hm]
  rcases hs with rfl | rfl
  · have hsign : (if (0 : UInt8) = 1 then (2 ^ 32 - m) % 2 ^ 32 else m) = m := if_neg (by decide)
    rw [hsign, int32, show (0 : UInt8).toNat = 0 from rfl, pow_zero, one_mul]
    split_ifs <;> omega
  · rw [if_pos rfl, int32, show (1 : UInt8).toNat = 1 from rfl, pow_one]
    split_ifs <;> omega

private theorem floatText_eq {s e : UInt8} {m : ℕ} (hm : m < 2 ^ 32) :
    floatText (s :: be32 m ++ [e]) = fixed (s = 1) (roundNearest 24 m / 10 ^ e.toNat) e.toNat := by
  simp only [floatText, ntohl_word32 hm]
  rfl

private theorem readDecimal_signedDecimal (z : ℤ) :
    readDecimal (signedDecimal z) = ((z : ℚ), 0) := by
  have hsigned := readDecimal_signed (decide (z < 0)) z.natAbs []
  rw [List.append_nil, List.append_nil, readUnsigned_decimal] at hsigned
  rw [signedDecimal]
  split_ifs with hneg
  · rw [decide_eq_true hneg] at hsigned
    refine hsigned.trans ?_
    rw [if_pos rfl, Nat.cast_natAbs, abs_of_neg hneg]
    simp
  · rw [decide_eq_false hneg] at hsigned
    refine hsigned.trans ?_
    rw [if_neg (by decide), Nat.cast_natAbs, abs_of_nonneg (not_lt.mp hneg), one_mul]

/-- Every subscriber that receives the datagram prints `q` with that many digits behind the
point, between the name of the type and the end of the line. -/
def Shows (src : SockAddrIn) (data : Bytes) (heap : Memory) (label : Bytes) (q : ℚ)
    (digits : ℕ) : Prop :=
  ∀ packet rest ret m rest', buildNotification (received data) heap src = .ok packet →
    Receives (recvTcpPacket (fun _ => 0)) (frame packet ++ rest) ret m rest' →
    ∃ notice text, parseNotification m maxLen = .ok notice ∧
      valueLine notice = label ++ text ++ ascii "\n" ∧ readDecimal text = (q, digits)

/-- What is shown of a datagram of a known type is decided by the bytes of its value. -/
theorem shows_iff (src : SockAddrIn) (heap : Memory) {data : Bytes}
    (known : (copyLen (datagramType data)).isSome) {label text : Bytes} {q : ℚ} {digits : ℕ}
    (hline : ∀ notice : Notice, notice.type = datagramType data →
      notice.value = datagramValue data → valueLine notice = label ++ text ++ ascii "\n") :
    Shows src data heap label q digits ↔ readDecimal text = (q, digits) := by
  constructor
  · intro h
    obtain ⟨packet, hbuilt⟩ := buildNotification_ok heap src ((received_front data).2 ▸ known)
    obtain ⟨p, hframe, -, -⟩ := packet_of_built hbuilt
    obtain ⟨ret, m, hr⟩ := exists_receives p [] (fun _ => 0)
    rw [← hframe] at hr
    obtain ⟨notice, text', hparse, hvalue, hread⟩ := h packet [] ret m [] hbuilt hr
    rw [(parseNotification_received known hbuilt hr).2.2 maxLen (frame_fits_buffer hbuilt)] at hparse
    cases hparse
    rw [hline _ rfl rfl] at hvalue
    rw [List.append_cancel_left (List.append_cancel_right hvalue)]
    exact hread
  · intro hread packet rest ret m rest' hbuilt hr
    exact ⟨_, text, (parseNotification_received known hbuilt hr).2.2 maxLen
      (frame_fits_buffer hbuilt), hline _ rfl rfl, hread⟩

/-- A value that lies in the part of the datagram that is received. -/
theorem datagramBytes_of_append {front value : Bytes} (rest : Bytes) {off : ℕ}
    (hoff : front.length = off) (hfits : off + value.length ≤ maxUdpPacketLen) :
    datagramBytes (front ++ value ++ rest) off value.length = value := by
  subst hoff
  apply List.ext_getElem
  · simp [datagramBytes]
  · intro i hi hv
    have hlt : front.length + i < maxUdpPacketLen := by omega
    simp [datagramBytes, List.getD_eq_getElem?_getD, List.getElem?_take, hlt,
      List.append_assoc, List.getElem?_append_right, List.getElem?_append_left hv, hv]

/-- A topic in its full width, the type and the value. -/
def datagram (topic : Bytes) (type : UInt8) (value rest : Bytes) : Bytes :=
  topic ++ [type] ++ value ++ rest

theorem datagram_fields {topic value : Bytes} {type : UInt8} (rest : Bytes)
    (htopic : topic.length = 50) (hlen : copyLen type = some value.length)
    (hother : type ≠ typeString) : datagramType (datagram topic type value rest) = type ∧
      datagramValue (datagram topic type value rest) = value := by
  have htype : datagramType (datagram topic type value rest) = type := by
    simp [datagramType, datagram, List.getD_eq_getElem?_getD, htopic]
  refine ⟨htype, ?_⟩
  have hshort : value.length ≤ 6 := by
    rcases NotificationLayout.copyLen_cases hlen with ⟨hstring, -⟩ | ⟨-, hle⟩
    · exact absurd hstring hother
    · exact hle
  rw [(value_of_fixed (by rw [htype, hlen]) (by rw [htype]; exact hother)).1]
  apply datagramBytes_of_append
  · rw [List.length_append, htopic, List.length_singleton]
  · simp only [maxUdpPacketLen]
    omega

private theorem shows_int_iff (src : SockAddrIn) (heap : Memory) {topic : Bytes}
    (htopic : topic.length = 50) (s : UInt8) (m : ℕ) (rest : Bytes) (z : ℤ) :
    Shows src (datagram topic typeInt (s :: be32 m) rest) heap (ascii "INT - ") z 0 ↔
      intArgument (s :: be32 m) = z := by
  have hlen : copyLen typeInt = some (s :: be32 m).length := rfl
  obtain ⟨htype, hvalue⟩ := datagram_fields rest htopic hlen (by decide)
  generalize datagram topic typeInt (s :: be32 m) rest = data at htype hvalue ⊢
  have known : (copyLen (datagramType data)).isSome := by
    rw [htype]
    rfl
  have hline (notice : Notice) (hnt : notice.type = datagramType data)
      (hnv : notice.value = datagramValue data) : valueLine notice =
        ascii "INT - " ++ signedDecimal (intArgument (s :: be32 m)) ++ ascii "\n" := by
    rw [valueLine, hnt, hnv, htype, hvalue, if_pos rfl]
  rw [shows_iff src heap known hline, readDecimal_signedDecimal, Prod.mk.injEq, Int.cast_inj]
  exact and_iff_left rfl

/-- An integer is shown as it was sent exactly if it fits the signed type it is printed as. -/
theorem showsInt_iff (src : SockAddrIn) (heap : Memory) {topic : Bytes}
    (htopic : topic.length = 50) {s : UInt8} (hs : s = 0 ∨ s = 1) {m : ℕ} (hm : m < 2 ^ 32)
    (rest : Bytes) :
    Shows src (datagram topic typeInt (s :: be32 m) rest) heap (ascii "INT - ")
      ((-1) ^ s.toNat * m : ℤ) 0 ↔ m < 2 ^ 31 + s.toNat :=
  (shows_int_iff src heap htopic s m rest _).trans (intArgument_eq_iff hs hm)

/-- The least number of the signed type. -/
theorem showsInt_iff_least : Shows sampleSender
    (datagram (List.replicate 50 97) typeInt (1 :: be32 (2 ^ 31)) []) (fun _ => 0) (ascii "INT - ")
    ((-1) ^ (1 : UInt8).toNat * (2 ^ 31 : ℕ) : ℤ) 0 :=
  (showsInt_iff sampleSender _ (by decide) (.inr rfl) (by decide) []).mpr (by decide)

/-- The same magnitude without the sign is shown with it. -/
theorem showsInt_fails :
    (Shows sampleSender (datagram (List.replicate 50 97) typeInt (0 :: be32 (2 ^ 31)) [])
      (fun _ => 0) (ascii "INT - ") (-2 ^ 31 : ℤ) 0) ∧
    ¬ Shows sampleSender (datagram (List.replicate 50 97) typeInt (0 :: be32 (2 ^ 31)) [])
      (fun _ => 0) (ascii "INT - ") ((-1) ^ (0 : UInt8).toNat * (2 ^ 31 : ℕ) : ℤ) 0 := by
  constructor
  · exact (shows_int_iff sampleSender _ (by decide) 0 (2 ^ 31) [] _).mpr (by decide)
  · intro h
    have hshown := (shows_int_iff sampleSender _ (by decide) 0 (2 ^ 31) [] _).mp h
    exact absurd hshown (by decide)

theorem shows_float_iff (src : SockAddrIn) (heap : Memory) {topic : Bytes}
    (htopic : topic.length = 50) {s : UInt8} (hs : s = 0 ∨ s = 1) {m : ℕ} (hm : m < 2 ^ 32)
    (e : UInt8) (rest : Bytes) (n : ℕ) :
    Shows src (datagram topic typeFloat (s :: be32 m ++ [e]) rest) heap (ascii "FLOAT - ")
      ((-1) ^ s.toNat * n / 10 ^ e.toNat) e.toNat ↔ roundNearest 24 m = n := by
  have hlen : copyLen typeFloat = some (s :: be32 m ++ [e]).length := rfl
  obtain ⟨htype, hvalue⟩ := datagram_fields rest htopic hlen (by decide)
  generalize datagram topic typeFloat (s :: be32 m ++ [e]) rest = data at htype hvalue ⊢
  have known : (copyLen (datagramType data)).isSome := by
    rw [htype]
    rfl
  have hline (notice : Notice) (hnt : notice.type = datagramType data)
      (hnv : notice.value = datagramValue data) : valueLine notice =
        ascii "FLOAT - " ++ floatText (s :: be32 m ++ [e]) ++ ascii "\n" := by
    rw [valueLine, hnt, hnv, htype, hvalue, if_neg (by decide), if_neg (by decide), if_pos rfl]
  have hpow : (10 : ℚ) ^ e.toNat ≠ 0 := by positivity
  have hsign : (if decide (s = 1) = true then -1 else 1 : ℚ) = (-1) ^ s.toNat := by
    rcases hs with rfl | rfl <;> rfl
  have hunit : (-1 : ℚ) ^ s.toNat ≠ 0 := pow_ne_zero _ (by norm_num)
  rw [shows_iff src heap known hline, floatText_eq hm, readDecimal_fixed, hsign, Prod.mk.injEq,
    mul_div_assoc, mul_right_inj' hunit, div_left_inj' hpow, Nat.cast_inj]
  exact and_iff_left rfl

/-- A number is shown as it was sent exactly if its mantissa fits the significand of a `float`. -/
theorem showsFloat_iff (src : SockAddrIn) (heap : Memory) {topic : Bytes}
    (htopic : topic.length = 50) {s : UInt8} (hs : s = 0 ∨ s = 1) {m : ℕ} (hm : m < 2 ^ 32)
    (e : UInt8) (rest : Bytes) :
    Shows src (datagram topic typeFloat (s :: be32 m ++ [e]) rest) heap (ascii "FLOAT - ")
      ((-1) ^ s.toNat * m / 10 ^ e.toNat) e.toNat ↔ Representable 24 m :=
  (shows_float_iff src heap htopic hs hm e rest m).trans (roundNearest_eq_self_iff (by decide))

/-- `-16777.218` has 25 bits, of which the last is zero. -/
theorem showsFloat_iff_even : Shows sampleSender
    (datagram (List.replicate 50 97) typeFloat (1 :: be32 (2 ^ 24 + 2) ++ [3]) []) (fun _ => 0)
    (ascii "FLOAT - ") ((-1) ^ (1 : UInt8).toNat * (2 ^ 24 + 2 : ℕ) / 10 ^ (3 : UInt8).toNat) 3 :=
  (showsFloat_iff sampleSender _ (by decide) (.inr rfl) (by decide) 3 []).mpr
    ⟨2 ^ 23 + 1, 1, by decide, by decide⟩

/-- `1677721.7` is shown as `1677721.6`. -/
theorem showsFloat_fails :
    (Shows sampleSender (datagram (List.replicate 50 97) typeFloat
      (0 :: be32 (2 ^ 24 + 1) ++ [1]) []) (fun _ => 0) (ascii "FLOAT - ")
      ((-1) ^ (0 : UInt8).toNat * (2 ^ 24 : ℕ) / 10 ^ (1 : UInt8).toNat) 1) ∧
    ¬ Shows sampleSender (datagram (List.replicate 50 97) typeFloat
      (0 :: be32 (2 ^ 24 + 1) ++ [1]) []) (fun _ => 0) (ascii "FLOAT - ")
      ((-1) ^ (0 : UInt8).toNat * (2 ^ 24 + 1 : ℕ) / 10 ^ (1 : UInt8).toNat) 1 := by
  have hround : roundNearest 24 (2 ^ 24 + 1) = 2 ^ 24 := by decide +kernel
  have hshow (n : ℕ) := shows_float_iff sampleSender (fun _ => 0)
    (show (List.replicate 50 97).length = 50 by decide) (.inl rfl)
    (show 2 ^ 24 + 1 < 2 ^ 32 by decide) 1 [] n
  constructor
  · exact (hshow _).mpr hround
  · intro h
    rw [(hshow _).mp h] at hround
    exact absurd hround (by decide)

end MessageBroker.NumberDisplay
