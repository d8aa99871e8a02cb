import MessageBroker.WireFormat

/-!
# The receive and send loops

`recv_tcp_packet` and `send_tcp_packet` stop at each system call with the pointer
and the count they pass, and continue with what the call returned. The counters
are `size_t`, so they live modulo `2 ^ 64` and a returned `-1` is converted first.
-/
namespace MessageBroker.PacketFraming
open ByteStrings WireFormat

/-- The conversion of an `int` or an `ssize_t` to `size_t`. -/
def ofSigned (z : ℤ) : ℕ := (z % 2 ^ 64).toNat

def addSize (a b : ℕ) : ℕ := (a + b) % 2 ^ 64

def subSize (a b : ℕ) : ℕ := (a + 2 ^ 64 - b) % 2 ^ 64

/-- The conversion of a `size_t` to the returned `int`. -/
def toInt (n : ℕ) : ℤ := int32 (n % 2 ^ 32)

private theorem ofSigned_lt (z : ℤ) : ofSigned z < 2 ^ 64 := by
  rw [ofSigned]
  omega

private theorem ofSigned_natCast {n : ℕ} (h : n < 2 ^ 64) : ofSigned n = n := by
  rw [ofSigned]
  omega

@[simp] theorem ofSigned_neg_one : ofSigned (-1) = 2 ^ 64 - 1 := by decide

@[simp] theorem ofSigned_zero : ofSigned 0 = 0 := by decide

theorem addSize_of_lt {a b : ℕ} (h : a + b < 2 ^ 64) : addSize a b = a + b :=
  Nat.mod_eq_of_lt h

private theorem subSize_of_le {a b : ℕ} (ha : a < 2 ^ 64) (h : b ≤ a) : subSize a b = a - b := by
  rw [subSize]
  omega

private theorem toInt_of_lt {n : ℕ} (h : n < 2 ^ 31) : toInt n = n := by
  rw [toInt, Nat.mod_eq_of_lt (by omega), int32_of_lt h]

/-- A store through a pointer `off` bytes behind `buff`. Address arithmetic wraps, so
`2 ^ 64 - 1` is the byte before the buffer. -/
def storeAt (m : Memory) (off : ℕ) (bs : Bytes) : Memory :=
  fun a => bs.getD (subSize a off) (m a)

theorem storeAt_eq_store {m : Memory} {off a : ℕ} {bs : Bytes} (h : off + bs.length < 2 ^ 64)
    (ha : a < 2 ^ 64) : storeAt m off bs a = m.store off bs a := by
  simp only [storeAt, Memory.store]
  split_ifs with hoff
  · rw [subSize_of_le ha hoff]
  · have hs : bs.length ≤ subSize a off := by
      rw [subSize]
      omega
    simp [List.getD_eq_getElem?_getD, List.getElem?_eq_none hs]

/-- Appending to what has been read so far. -/
theorem read_storeAt (m : Memory) (off : ℕ) (bs : Bytes) (h : off + bs.length < 2 ^ 64) :
    (storeAt m off bs).read 0 (off + bs.length) = m.read 0 off ++ bs := by
  rw [← Memory.read_store_append]
  apply List.map_congr_left
  intro i hi
  exact storeAt_eq_store h (by simp at hi; omega)

/-- Where a function is: at a system call, or past its end. -/
inductive Status (σ : Type)
  | calling (s : σ)
  | returned (ret : ℤ) (buff : Memory)
  | died (msg : String)

def Status.map {σ τ : Type} (f : σ → τ) : Status σ → Status τ
  | .calling s => .calling (f s)
  | .returned ret buff => .returned ret buff
  | .died msg => .died msg

structure Recv where
  buff : Memory
  bytesReceived : ℕ
  bytesRemaining : ℕ
  inPayload : Bool

namespace Recv

/-- From the end of a loop body to the next call or the `return`. -/
def settle (s : Recv) : Status Recv :=
  if s.bytesRemaining ≠ 0 then .calling s
  else if s.inPayload then .returned (toInt s.bytesReceived) s.buff
  else
    let payloadLen := hdrLen s.buff
    let t := { s with bytesRemaining := ofSigned payloadLen, inPayload := true }
    if t.bytesRemaining ≠ 0 then .calling t else .returned (toInt t.bytesReceived) t.buff

/-- The loop body after `recv` has stored `data` and returned `ret`. The assertion is
about a `size_t`. -/
def result (s : Recv) (ret : ℤ) (data : Bytes) : Status Recv :=
  let bytesReceivedWithOneCall := ofSigned ret
  if bytesReceivedWithOneCall < 0 then
    .died (if s.inPayload then "recv_tcp_packet failed in payload!\n"
      else "recv_tcp_packet failed in header!\n")
  else settle
    { s with
      buff := storeAt s.buff s.bytesReceived data
      bytesReceived := addSize s.bytesReceived bytesReceivedWithOneCall
      bytesRemaining := subSize s.bytesRemaining bytesReceivedWithOneCall }

end Recv

def recvTcpPacket (buff : Memory) : Status Recv :=
  Recv.settle ⟨buff, 0, sizeofTcpHdr, false⟩

theorem recvTcpPacket_eq (buff : Memory) :
    recvTcpPacket buff = .calling ⟨buff, 0, sizeofTcpHdr, false⟩ := rfl

namespace Recv

/-- A pending call of `recv` while the front of `stream` is received. -/
structure Reads (stream : Bytes) (s : Recv) : Prop where
  pending : 0 < s.bytesRemaining
  position : s.bytesReceived ≤ stream.length
  stored : s.buff.read 0 s.bytesReceived = stream.take s.bytesReceived
  header : s.inPayload = false → s.bytesReceived + s.bytesRemaining = sizeofTcpHdr
  payload : s.inPayload = true → sizeofTcpHdr ≤ s.bytesReceived ∧
    s.bytesReceived + s.bytesRemaining = sizeofTcpHdr + ofSigned (declaredLen stream)

/-- The packet at the front of `stream` has been received. -/
def Completes (stream : Bytes) (total : ℕ) (st : Status Recv) : Prop :=
  total = sizeofTcpHdr + ofSigned (declaredLen stream) ∧
    ∃ m : Memory, st = .returned (toInt total) m ∧ m.read 0 total = stream.take total

theorem reads_initial (stream : Bytes) (buff : Memory) :
    Reads stream ⟨buff, 0, sizeofTcpHdr, false⟩ where
  pending := by simp [sizeofTcpHdr]
  position := Nat.zero_le _
  stored := rfl
  header := by simp
  payload := by simp

theorem Reads.remaining_lt {stream : Bytes} {s : Recv} (h : s.Reads stream) :
    s.bytesRemaining < 2 ^ 64 := by
  have hlt := ofSigned_lt (declaredLen stream)
  cases hp : s.inPayload with
  | false =>
    have hh := h.header hp
    simp only [sizeofTcpHdr] at hh
    omega
  | true =>
    have hh := h.payload hp
    omega

private theorem ofSigned_declaredLen_bytes (p : Packet) (rest : Bytes) :
    ofSigned (declaredLen (p.bytes ++ rest)) = p.payload.length := by
  have hfits := p.fits
  rw [declaredLen_bytes, ofSigned_natCast (by omega)]

/-- In front of a packet nothing behind it is asked for. -/
theorem Reads.end_le {p : Packet} {rest : Bytes} {s : Recv} (h : s.Reads (p.bytes ++ rest)) :
    s.bytesReceived + s.bytesRemaining ≤ p.bytes.length := by
  rw [Packet.length_bytes]
  cases hp : s.inPayload with
  | false =>
    have hheader := h.header hp
    omega
  | true =>
    obtain ⟨-, hpayload⟩ := h.payload hp
    rw [ofSigned_declaredLen_bytes] at hpayload
    omega

/-- A call that returned a count moves both counters by it. -/
theorem result_of_count {s : Recv} (data : Bytes) (hd : data.length ≤ s.bytesRemaining)
    (hr : s.bytesRemaining < 2 ^ 64) (hb : s.bytesReceived + data.length < 2 ^ 64) :
    s.result data.length data = settle
      ⟨storeAt s.buff s.bytesReceived data, s.bytesReceived + data.length,
        s.bytesRemaining - data.length, s.inPayload⟩ := by
  rw [result, ofSigned_natCast (by omega)]
  simp [addSize_of_lt hb, subSize_of_le hr hd]

/-- One more fragment: the call is pending with the bytes behind it, or the packet is
complete and the function returns. -/
theorem Reads.result {stream data : Bytes} {s : Recv} (h : s.Reads stream) {n : ℕ}
    (hn : n ≤ s.bytesRemaining) (hs : s.bytesReceived + n ≤ stream.length)
    (hb : s.bytesReceived + n < 2 ^ 64)
    (hd : data = (stream.drop s.bytesReceived).take n) :
    (∃ t, s.result n data = .calling t ∧ t.Reads stream ∧
      t.bytesReceived = s.bytesReceived + n) ∨
    Completes stream (s.bytesReceived + n) (s.result n data) := by
  have hlen : data.length = n := by
    rw [hd]
    simp
    omega
  have hres := result_of_count data (s := s) (by omega) h.remaining_lt (by omega)
  rw [hlen] at hres
  have hstored : (storeAt s.buff s.bytesReceived data).read 0 (s.bytesReceived + n) =
      stream.take (s.bytesReceived + n) := by
    rw [← hlen, read_storeAt _ _ _ (by omega), h.stored, hlen, List.take_add, hd]
  rw [hres, settle]
  by_cases hrem : s.bytesRemaining - n = 0
  · cases hp : s.inPayload with
    | true =>
      have hpay := h.payload hp
      right
      refine ⟨by omega, storeAt s.buff s.bytesReceived data, ?_, hstored⟩
      simp [hrem]
    | false =>
      have hhdr := h.header hp
      have hfive : s.bytesReceived + n = sizeofTcpHdr := by omega
      have hlenEq := hdrLen_eq_declaredLen stream (hfive ▸ hs) (hfive ▸ hstored)
      by_cases hz : ofSigned (declaredLen stream) = 0
      · right
        refine ⟨by omega, storeAt s.buff s.bytesReceived data, ?_, hstored⟩
        simp [hrem, hlenEq, hz]
      · left
        refine ⟨⟨storeAt s.buff s.bytesReceived data, s.bytesReceived + n,
          ofSigned (declaredLen stream), true⟩, by simp [hrem, hlenEq, hz], ?_, rfl⟩
        exact ⟨by simp only; omega, hs, hstored, by simp, by simp only; omega⟩
  · left
    refine ⟨_, by simp [hrem]; rfl, ?_, rfl⟩
    refine ⟨by simp only; omega, hs, hstored, ?_, ?_⟩
    · intro hp
      have hh := h.header hp
      simp only
      omega
    · intro hp
      have hh := h.payload hp
      simp only
      omega

/-- In front of a packet the function returns as soon as the packet is complete. -/
theorem Reads.result_packet {p : Packet} {rest data : Bytes} {s : Recv}
    (h : s.Reads (p.bytes ++ rest)) {n : ℕ} (hn : n ≤ s.bytesRemaining)
    (hd : data = ((p.bytes ++ rest).drop s.bytesReceived).take n) :
    (∃ t, s.result n data = .calling t ∧ t.Reads (p.bytes ++ rest) ∧
      t.bytesReceived = s.bytesReceived + n) ∨
    (s.bytesReceived + n = p.bytes.length ∧
      ∃ m : Memory, s.result n data = .returned p.bytes.length m ∧
        m.read 0 p.bytes.length = p.bytes) := by
  have hend := h.end_le
  have hfits := p.fits
  have hlen := p.length_bytes
  have hstream : s.bytesReceived + n ≤ (p.bytes ++ rest).length := by
    rw [List.length_append]
    omega
  rcases h.result hn hstream (by omega) hd with hcall | ⟨htotal, m, hm, hstored⟩
  · exact .inl hcall
  · rw [ofSigned_declaredLen_bytes, ← hlen] at htotal
    rw [htotal, toInt_of_lt (by omega)] at hm
    rw [htotal, List.take_left] at hstored
    exact .inr ⟨htotal, m, hm, hstored⟩

end Recv

structure Send where
  buff : Memory
  bytesSent : ℕ
  bytesRemaining : ℕ

namespace Send

def settle (s : Send) : Status Send :=
  if s.bytesRemaining ≠ 0 then .calling s else .returned (toInt s.bytesSent) s.buff

/-- The loop body after `send` has returned `ret`. -/
def result (s : Send) (ret : ℤ) : Status Send :=
  let bytesSentWithOneCall := ofSigned ret
  if bytesSentWithOneCall < 0 then .died "send_tcp_packet failed!\n"
  else settle
    { s with
      bytesSent := addSize s.bytesSent bytesSentWithOneCall
      bytesRemaining := subSize s.bytesRemaining bytesSentWithOneCall }

/-- The `n` bytes the kernel takes from the pointer it is passed. -/
def taken (s : Send) (n : ℕ) : Bytes := s.buff.read s.bytesSent n

end Send

/-- `payload_len + sizeof(tcp_hdr)` is computed in `size_t` and stored in an `int`. -/
def sendTcpPacket (buff : Memory) : Status Send :=
  let payloadLen := hdrLen buff
  let len := toInt (addSize (ofSigned payloadLen) sizeofTcpHdr)
  Send.settle ⟨buff, 0, ofSigned len⟩

namespace Send

/-- A pending call of `send` for a packet. -/
structure Writes (p : Packet) (s : Send) : Prop where
  pending : 0 < s.bytesRemaining
  counters : s.bytesSent + s.bytesRemaining = p.bytes.length
  stored : s.buff.read 0 p.bytes.length = p.bytes

theorem Writes.taken_eq {p : Packet} {s : Send} (h : s.Writes p) {n : ℕ}
    (hn : n ≤ s.bytesRemaining) : s.taken n = (p.bytes.drop s.bytesSent).take n := by
  have hc := h.counters
  obtain ⟨k, hk⟩ : ∃ k, s.bytesRemaining = n + k := ⟨s.bytesRemaining - n, by omega⟩
  have hread : s.buff.read 0 (s.bytesSent + (n + k)) = p.bytes := by
    rw [← hk, hc, h.stored]
  rw [Memory.read_add, Nat.zero_add, Memory.read_add] at hread
  rw [← hread, List.drop_left' (by simp), List.take_left' (by simp), taken]

/-- A call that took some bytes: the next one is pending with the bytes behind them, or
the packet is complete and the function returns. A call may also take none. -/
theorem Writes.result {p : Packet} {s : Send} (h : s.Writes p) {n : ℕ}
    (hn : n ≤ s.bytesRemaining) :
    (∃ t, s.result n = .calling t ∧ t.Writes p ∧ t.bytesSent = s.bytesSent + n) ∨
    (s.bytesSent + n = p.bytes.length ∧
      s.result n = .returned p.bytes.length s.buff) := by
  have hc := h.counters
  have hp := p.fits
  rw [Packet.length_bytes] at hc
  have hres : s.result n = settle ⟨s.buff, s.bytesSent + n, s.bytesRemaining - n⟩ := by
    rw [Send.result, ofSigned_natCast (by omega)]
    simp [addSize_of_lt (show s.bytesSent + n < 2 ^ 64 by omega),
      subSize_of_le (show s.bytesRemaining < 2 ^ 64 by omega) hn]
  rw [hres, settle]
  by_cases hrem : s.bytesRemaining - n = 0
  · right
    have hsum : s.bytesSent + n = p.bytes.length := by
      rw [Packet.length_bytes]
      omega
    refine ⟨hsum, ?_⟩
    simp only [hrem, ne_eq, not_true_eq_false, ↓reduceIte, hsum]
    rw [toInt_of_lt (by rw [Packet.length_bytes]; omega)]
  · left
    refine ⟨_, by simp [hrem]; rfl, ?_, rfl⟩
    exact ⟨by simp only; omega, by rw [Packet.length_bytes]; simp only; omega, h.stored⟩

end Send

/-- On a buffer that starts with a packet, the first call asks for the whole packet. -/
theorem sendTcpPacket_writes {p : Packet} {buff : Memory}
    (h : buff.read 0 p.bytes.length = p.bytes) :
    ∃ s, sendTcpPacket buff = .calling s ∧ s.Writes p ∧ s.bytesSent = 0 := by
  have hp := p.fits
  have hlen : hdrLen buff = p.payload.length := by
    rw [hdrLen_eq_declaredLen p.bytes (by simp [Packet.length_bytes]),
      ← p.bytes.append_nil,
      declaredLen_bytes]
    rw [Packet.length_bytes, Memory.read_add] at h
    rw [← h, List.take_left' (by simp)]
  have htotal : ofSigned (toInt (addSize (ofSigned (hdrLen buff)) sizeofTcpHdr)) =
      p.bytes.length := by
    rw [hlen, ofSigned_natCast (by omega), addSize_of_lt (by omega), toInt_of_lt (by omega),
      ofSigned_natCast (by omega), Packet.length_bytes, Nat.add_comm]
  have hpos := p.length_bytes_pos
  refine ⟨⟨buff, 0, p.bytes.length⟩, ?_, ⟨hpos, Nat.zero_add _, h⟩, rfl⟩
  simp only [sendTcpPacket, Send.settle, htotal]
  exact if_pos (by omega)

end MessageBroker.PacketFraming
