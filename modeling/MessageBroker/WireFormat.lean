import MessageBroker.ByteStrings

/-!
# Packets between the server and its subscribers

Sizes, action codes and layouts of the shared headers. Structures are packed and
integers are stored as on x86-64.
-/
namespace MessageBroker.WireFormat
open ByteStrings

def maxLen : ℕ := 2 ^ 12
def maxId : ℕ := 4
def maxTopic : ℕ := 51
def maxIp : ℕ := 16
def maxUdpPacketLen : ℕ := 51 + 1 + 1500

def connectAction : UInt8 := 1
def shutdownClose : UInt8 := 2
def subscribeAction : UInt8 := 3
def notificationAction : UInt8 := 4
def shutdownIntruder : UInt8 := 5
def unsubscribeAction : UInt8 := 6

def typeInt : UInt8 := 0
def typeShortReal : UInt8 := 1
def typeFloat : UInt8 := 2
def typeString : UInt8 := 3

/-- `sizeof(tcp_hdr)`: the action and a four-byte length. -/
def sizeofTcpHdr : ℕ := 5

/-- A packet with its payload. The length field and the total are `int`s. -/
structure Packet where
  action : UInt8
  payload : Bytes
  fits : sizeofTcpHdr + payload.length < 2 ^ 31

namespace Packet

/-- The header followed by the payload. -/
def bytes (p : Packet) : Bytes := p.action :: le32 p.payload.length ++ p.payload

theorem length_bytes (p : Packet) : p.bytes.length = sizeofTcpHdr + p.payload.length := by
  simp [bytes, sizeofTcpHdr]
  omega

theorem length_bytes_pos (p : Packet) : 0 < p.bytes.length := by
  rw [length_bytes, sizeofTcpHdr]
  omega

/-- The packet fits the buffer it is received into. -/
def Buffered (p : Packet) : Prop := p.bytes.length ≤ maxLen

instance (p : Packet) : Decidable p.Buffered := by
  unfold Buffered; infer_instance

/-- The C string in the payload. -/
def text (p : Packet) : Bytes := untilNul p.payload

/-- The payload behind the header in a buffer that holds the packet. -/
theorem read_store_bytes (p : Packet) (buff : Memory) (h : p.Buffered) :
    ∃ k, (buff.store 0 p.bytes).read sizeofTcpHdr (maxLen - sizeofTcpHdr) =
      p.payload ++ buff.read p.bytes.length k := by
  rw [Buffered, length_bytes] at h
  refine ⟨maxLen - sizeofTcpHdr - p.payload.length, ?_⟩
  have hread := Memory.read_store_zero_append buff (p.action :: le32 p.payload.length) p.payload
    (maxLen - sizeofTcpHdr - p.payload.length)
  rw [show (p.action :: le32 p.payload.length).length = sizeofTcpHdr from rfl] at hread
  rw [length_bytes, ← hread, bytes, Nat.add_sub_cancel' (by omega)]

end Packet

/-- `hdr->len` of a header in memory. -/
def hdrLen (m : Memory) : ℤ := int32 (readLE32 (m 1) (m 2) (m 3) (m 4))

theorem hdrLen_bounds (m : Memory) : -2 ^ 31 ≤ hdrLen m ∧ hdrLen m < 2 ^ 31 := by
  have h := readLE32_lt (m 1) (m 2) (m 3) (m 4)
  rw [hdrLen, int32]
  split_ifs <;> omega

/-- The length field of a stream that starts with a header. -/
def declaredLen (stream : Bytes) : ℤ := hdrLen (Memory.ofBytes stream)

theorem hdrLen_eq_declaredLen {m : Memory} (stream : Bytes) (hl : sizeofTcpHdr ≤ stream.length)
    (h : m.read 0 sizeofTcpHdr = stream.take sizeofTcpHdr) : hdrLen m = declaredLen stream := by
  have hget (i : ℕ) (hi : i < sizeofTcpHdr) : m i = Memory.ofBytes stream i := by
    have hm := Memory.getElem_read m 0 sizeofTcpHdr i (by simpa using hi)
    rw [Nat.zero_add] at hm
    rw [← hm]
    simp only [h, List.getElem_take, Memory.ofBytes]
    rw [List.getD_eq_getElem?_getD, List.getElem?_eq_getElem (by omega), Option.getD_some]
  simp only [sizeofTcpHdr] at hget
  rw [declaredLen, hdrLen, hdrLen, hget 1 (by omega), hget 2 (by omega), hget 3 (by omega),
    hget 4 (by omega)]

@[simp] theorem declaredLen_bytes (p : Packet) (rest : Bytes) :
    declaredLen (p.bytes ++ rest) = p.payload.length := by
  have hp := p.fits
  simp only [sizeofTcpHdr] at hp
  simp only [declaredLen, hdrLen, Memory.ofBytes, Packet.bytes, le32, List.cons_append,
    List.getD_cons_succ, List.getD_cons_zero]
  rw [readLE32_le32 _ (by omega), int32_of_lt (by omega)]

/-- A packet is read off the front of a stream in one way only. -/
theorem Packet.append_inj {p q : Packet} {rest rest' : Bytes}
    (h : p.bytes ++ rest = q.bytes ++ rest') : p = q ∧ rest = rest' := by
  have hdeclared := congrArg declaredLen h
  rw [declaredLen_bytes, declaredLen_bytes] at hdeclared
  have hlen : p.bytes.length = q.bytes.length := by
    rw [p.length_bytes, q.length_bytes, Int.natCast_inj.mp hdeclared]
  obtain ⟨hbytes, hrest⟩ := List.append_inj h hlen
  refine ⟨?_, hrest⟩
  obtain ⟨action, payload, fits⟩ := p
  obtain ⟨action', payload', fits'⟩ := q
  obtain ⟨haction, hbehind⟩ := List.cons.inj hbytes
  obtain ⟨-, hpayload⟩ := List.append_inj hbehind rfl
  cases haction
  cases hpayload
  rfl

theorem Packet.bytes_injective {p q : Packet} (h : p.bytes = q.bytes) : p = q := by
  have hnil : p.bytes ++ [] = q.bytes ++ [] := by rw [h]
  exact (Packet.append_inj hnil).1

/-- A packet whose payload is a string with its terminator. -/
def stringPacket (action : UInt8) (s : Bytes) (h : s.length + 1 ≤ maxLen - sizeofTcpHdr) : Packet :=
  ⟨action, s ++ [0], by simp [maxLen, sizeofTcpHdr] at *; omega⟩

/-- The packet `handle_shutdown` sends. -/
def shutdownPacket : Packet := ⟨shutdownClose, [], by decide⟩

theorem stringPacket_buffered (action : UInt8) (s : Bytes)
    (h : s.length + 1 ≤ maxLen - sizeofTcpHdr) : (stringPacket action s h).Buffered := by
  simp only [Packet.Buffered, Packet.length_bytes, stringPacket, List.length_append,
    List.length_singleton, maxLen, sizeofTcpHdr] at h ⊢
  omega

/-- A `sockaddr_in`: the port is a number, the address has its bytes in order. -/
structure SockAddrIn where
  sinPort : ℕ
  portFits : sinPort < 2 ^ 16
  addr : UInt8 × UInt8 × UInt8 × UInt8
  deriving DecidableEq

/-- `AF_INET` in host order, then port and address in network order. -/
def SockAddrIn.bytes (a : SockAddrIn) : Bytes :=
  [2, 0, UInt8.ofNat (a.sinPort / 256), UInt8.ofNat a.sinPort, a.addr.1, a.addr.2.1,
   a.addr.2.2.1, a.addr.2.2.2]

/-- The decimal digits of a number. -/
def decimal (n : ℕ) : Bytes := (Nat.toDigits 10 n).map byte

/-- What `inet_ntop` and `inet_ntoa` print for the four bytes at the front. -/
def dotted (bs : Bytes) : Bytes :=
  [byte '.'].intercalate ((bs.take 4).map (fun b => decimal b.toNat))

theorem dotted_eq (a b c d : UInt8) (rest : Bytes) : dotted (a :: b :: c :: d :: rest) =
    decimal a.toNat ++ byte '.' :: (decimal b.toNat ++ byte '.' :: (decimal c.toNat ++
      byte '.' :: decimal d.toNat)) := by
  simp [dotted, List.intercalate]

private theorem length_decimal_le (b : UInt8) : (decimal b.toNat).length ≤ 3 := by
  have hall : ∀ n < 256, (decimal n).length ≤ 3 := by decide +kernel
  exact hall _ b.toNat_lt

theorem decimal_inj {a b : UInt8} (h : decimal a.toNat = decimal b.toNat) : a = b := by
  have hall : ∀ n < 256, decimalValue (decimal n) = n := by decide +kernel
  have hvalue := congrArg decimalValue h
  rw [hall _ a.toNat_lt, hall _ b.toNat_lt] at hvalue
  exact UInt8.toNat_inj.mp hvalue

theorem digits_of_mem_decimal {b c : UInt8} (h : c ∈ decimal b.toNat) :
    48 ≤ c.toNat ∧ c.toNat ≤ 57 := by
  have hall : ∀ n < 256, (decimal n).all
      (fun d => Nat.ble 48 d.toNat && Nat.ble d.toNat 57) = true := by
    decide +kernel
  have hdigit := List.all_eq_true.mp (hall _ b.toNat_lt) c h
  rw [Bool.and_eq_true, Nat.ble_eq, Nat.ble_eq] at hdigit
  exact hdigit

/-- A printed address consists of digits and dots. -/
theorem mem_dotted {a b c d x : UInt8} {rest : Bytes} (h : x ∈ dotted (a :: b :: c :: d :: rest)) :
    48 ≤ x.toNat ∧ x.toNat ≤ 57 ∨ x = byte '.' := by
  rw [dotted_eq] at h
  simp only [List.mem_append, List.mem_cons] at h
  rcases h with h | h | h | h | h | h | h
  · exact .inl (digits_of_mem_decimal h)
  · exact .inr h
  · exact .inl (digits_of_mem_decimal h)
  · exact .inr h
  · exact .inl (digits_of_mem_decimal h)
  · exact .inr h
  · exact .inl (digits_of_mem_decimal h)

/-- The printed front of a `sockaddr_in` is short: its first two bytes have one digit each. -/
theorem length_dotted_le (a : SockAddrIn) : (dotted a.bytes).length ≤ 11 := by
  have h₀ : (decimal (2 : UInt8).toNat).length = 1 := rfl
  have h₁ : (decimal (0 : UInt8).toNat).length = 1 := rfl
  have h₂ := length_decimal_le (UInt8.ofNat (a.sinPort / 256))
  have h₃ := length_decimal_le (UInt8.ofNat a.sinPort)
  rw [SockAddrIn.bytes, dotted_eq]
  simp only [List.length_append, List.length_cons, h₀, h₁]
  omega

end MessageBroker.WireFormat
