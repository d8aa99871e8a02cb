import MessageBroker.PacketFraming

/-!
# Failing calls and hostile headers

What the two loops do when a system call fails, and where the receive loop stores the
bytes of a stream that no honest sender has written.
-/
namespace MessageBroker.FramingFailures
open ByteStrings WireFormat PacketFraming

/-- A loop of system calls: the offset of the pointer and the count it passes, the most the
call can return, and how the function continues. -/
structure Calls (σ : Type) where
  offset : σ → ℕ
  count : σ → ℕ
  limit : σ → ℕ
  result : σ → ℤ → Status σ

namespace Calls

variable {σ : Type} (c : Calls σ)

/-- Values the calls of a loop can return: `-1`, `0` or at most the limit. -/
def Valid : Status σ → List ℤ → Prop
  | _, [] => True
  | .calling s, ret :: rets => -1 ≤ ret ∧ ret ≤ c.limit s ∧ Valid (c.result s ret) rets
  | .returned _ _, _ :: _ => False
  | .died _, _ :: _ => False

/-- The function has ended and says that it failed. -/
def Failed : Status σ → Prop
  | .calling _ => False
  | .returned ret _ => ret < 0
  | .died _ => True

/-- A call is passed a pointer into the buffer (an offset from `2 ^ 63` on is before it)
and a count of bytes that are still `left`. -/
def InPacket (left : ℕ) : Status σ → Prop
  | .calling s => c.offset s < 2 ^ 63 ∧ c.count s ≤ left
  | .returned _ _ => True
  | .died _ => True

/-- Each call stays in the packet, and a failed call ends the function with a failure. -/
def Clean (fails : ℤ → Prop) : ℕ → Status σ → List ℤ → Prop
  | left, st, [] => c.InPacket left st
  | left, .calling s, ret :: rets => c.InPacket left (.calling s) ∧
      (fails ret → Failed (c.result s ret)) ∧
      (¬ fails ret → Clean fails (left - ret.toNat) (c.result s ret) rets)
  | _, .returned _ _, _ :: _ => True
  | _, .died _, _ :: _ => True

instance decidableValid : (st : Status σ) → (rets : List ℤ) → Decidable (c.Valid st rets)
  | _, [] => isTrue trivial
  | .calling s, ret :: rets =>
    have := decidableValid (c.result s ret) rets
    inferInstanceAs (Decidable (_ ∧ _ ∧ _))
  | .returned _ _, _ :: _ => isFalse id
  | .died _, _ :: _ => isFalse id

instance decidableFailed : (st : Status σ) → Decidable (Failed st)
  | .calling _ => isFalse id
  | .returned ret _ => inferInstanceAs (Decidable (ret < 0))
  | .died _ => isTrue trivial

instance decidableInPacket (left : ℕ) : (st : Status σ) → Decidable (c.InPacket left st)
  | .calling _ => inferInstanceAs (Decidable (_ ∧ _))
  | .returned _ _ => isTrue trivial
  | .died _ => isTrue trivial

instance decidableClean (fails : ℤ → Prop) [DecidablePred fails] :
    (left : ℕ) → (st : Status σ) → (rets : List ℤ) → Decidable (c.Clean fails left st rets)
  | left, st, [] => c.decidableInPacket left st
  | left, .calling s, ret :: rets =>
    have := decidableClean fails (left - ret.toNat) (c.result s ret) rets
    have := c.decidableInPacket left (.calling s)
    inferInstanceAs (Decidable (_ ∧ (_ → _) ∧ (_ → _)))
  | _, .returned _ _, _ :: _ => isTrue trivial
  | _, .died _, _ :: _ => isTrue trivial

/-- A loop that is inside its packet as long as no call fails, and that never notices a
failed call, is clean exactly when no call fails. -/
theorem clean_iff {c : Calls σ} {fails : ℤ → Prop} (Inside : ℕ → σ → Prop)
    (hcall : ∀ left s, Inside left s → c.InPacket left (.calling s))
    (hgood : ∀ left s ret, Inside left s → ¬ fails ret → -1 ≤ ret → ret ≤ c.limit s →
      (∃ t, c.result s ret = .calling t ∧ Inside (left - ret.toNat) t) ∨
        ∃ r m, c.result s ret = .returned r m)
    (hbad : ∀ left s ret, Inside left s → fails ret → -1 ≤ ret → ¬ Failed (c.result s ret))
    {left : ℕ} {s : σ} {rets : List ℤ} (h : Inside left s)
    (hv : c.Valid (.calling s) rets) :
    c.Clean fails left (.calling s) rets ↔ ∀ ret ∈ rets, ¬ fails ret := by
  induction rets generalizing left s with
  | nil => simpa [Clean] using hcall left s h
  | cons ret rets ih =>
    obtain ⟨hlow, hhigh, hv⟩ := hv
    by_cases hf : fails ret
    · simp [Clean, hf, hbad left s ret h hf hlow]
    · simp only [Clean, hcall left s h, hf, false_imp_iff, not_false_eq_true,
        true_imp_iff, true_and, List.forall_mem_cons]
      rcases hgood left s ret h hf hlow hhigh with ⟨t, ht, hin⟩ | ⟨r, m, hr⟩
      · rw [ht] at hv ⊢
        exact ih hin hv
      · rw [hr] at hv ⊢
        cases rets with
        | nil => simp [Clean, InPacket]
        | cons => exact hv.elim

end Calls

open Calls

/-- The receive loop together with the bytes of the stream it has not consumed. -/
def recvCalls : Calls (Recv × Bytes) where
  offset s := s.1.bytesReceived
  count s := s.1.bytesRemaining
  limit s := min s.1.bytesRemaining s.2.length
  result s ret := Status.map (·, s.2.drop ret.toNat) (s.1.result ret (s.2.take ret.toNat))

/-- `recv_tcp_packet` at its first call. -/
def recvStart (buff : Memory) (stream : Bytes) : Status (Recv × Bytes) :=
  Status.map (·, stream) (recvTcpPacket buff)

private theorem recvCalls_result (s : Recv × Bytes) (ret : ℤ) : recvCalls.result s ret =
    Status.map (·, s.2.drop ret.toNat) (s.1.result ret (s.2.take ret.toNat)) := rfl

def sendCalls : Calls Send where
  offset := Send.bytesSent
  count := Send.bytesRemaining
  limit := Send.bytesRemaining
  result := Send.result

private theorem sendCalls_result (s : Send) (ret : ℤ) : sendCalls.result s ret = s.result ret := rfl

/-- Reading the front of `stream`. -/
structure Consuming (stream : Bytes) (s : Recv × Bytes) : Prop where
  reads : s.1.Reads stream
  rest : s.2 = stream.drop s.1.bytesReceived

private theorem consuming_initial (stream : Bytes) (buff : Memory) :
    Consuming stream (⟨buff, 0, sizeofTcpHdr, false⟩, stream) :=
  ⟨Recv.reads_initial stream buff, rfl⟩

/-- A positive result keeps the loop at the front of the stream, or completes the packet. -/
theorem Consuming.result {stream : Bytes} {s : Recv × Bytes} (h : Consuming stream s) {n : ℕ}
    (hn : n ≤ recvCalls.limit s) (hb : s.1.bytesReceived + n < 2 ^ 64) :
    (∃ t, recvCalls.result s n = .calling t ∧ Consuming stream t ∧
      t.1.bytesReceived = s.1.bytesReceived + n) ∨
    (s.1.bytesReceived + n = sizeofTcpHdr + ofSigned (declaredLen stream) ∧
      ∃ r m, recvCalls.result s n = .returned r m) := by
  have hrest := h.rest
  have hpos := h.reads.position
  simp only [recvCalls, Nat.le_min, hrest, List.length_drop] at hn
  have hres := h.reads.result hn.1 (show s.1.bytesReceived + n ≤ stream.length by omega) hb rfl
  rcases hres with ⟨t, ht, htr, htb⟩ | ⟨htotal, m, hm, -⟩
  · left
    refine ⟨(t, s.2.drop n), ?_, ⟨htr, ?_⟩, htb⟩
    · rw [recvCalls_result, Int.toNat_natCast, hrest, ht, Status.map]
    · simp only [hrest, List.drop_drop, htb]
  · right
    refine ⟨htotal, toInt (s.1.bytesReceived + n), m, ?_⟩
    rw [recvCalls_result, Int.toNat_natCast, hrest, hm, Status.map]

/-- A call that returned `0` or `-1` leaves the loop at a further call. -/
theorem recv_result_of_failed {s : Recv} (data : Bytes) {ret : ℤ} (hlow : -1 ≤ ret)
    (hret : ret ≤ 0) (hpos : 0 < s.bytesRemaining) (hlt : s.bytesRemaining < 2 ^ 63) :
    ∃ t, s.result ret data = .calling t := by
  have hcases : ret = -1 ∨ ret = 0 := by omega
  have hne : subSize s.bytesRemaining (ofSigned ret) ≠ 0 := by
    rcases hcases with rfl | rfl
    · rw [ofSigned_neg_one, subSize]
      omega
    · rw [ofSigned_zero, subSize]
      omega
  simp only [Recv.result, Nat.not_lt_zero, ↓reduceIte, Recv.settle, hne, ne_eq,
    not_false_eq_true, Status.calling.injEq, exists_eq']

private theorem send_result_of_failed {s : Send} (hpos : 0 < s.bytesRemaining)
    (hlt : s.bytesRemaining < 2 ^ 63) : ∃ t, s.result (-1) = .calling t := by
  have hne : subSize s.bytesRemaining (ofSigned (-1)) ≠ 0 := by
    rw [ofSigned_neg_one, subSize]
    omega
  simp only [Send.result, Nat.not_lt_zero, ↓reduceIte, Send.settle, hne, ne_eq,
    not_false_eq_true, Status.calling.injEq, exists_eq']

/-- Receiving a packet of which `left` bytes have not been consumed. -/
structure InsidePacket (p : Packet) (later : Bytes) (left : ℕ) (s : Recv × Bytes) : Prop where
  consuming : Consuming (p.bytes ++ later) s
  left : s.1.bytesReceived + left = p.bytes.length

theorem InsidePacket.count_le {p : Packet} {later : Bytes} {left : ℕ} {s : Recv × Bytes}
    (h : InsidePacket p later left s) : s.1.bytesRemaining ≤ left := by
  have hend := h.consuming.reads.end_le
  have hleft := h.left
  omega

/-- The receive loop is clean exactly when no call fails: it is inside its packet up to the
first failure, which it does not notice. -/
theorem recv_clean_iff (p : Packet) (buff : Memory) (later : Bytes) {rets : List ℤ}
    (hv : recvCalls.Valid (recvStart buff (p.bytes ++ later)) rets) :
    recvCalls.Clean (· ≤ 0) p.bytes.length (recvStart buff (p.bytes ++ later)) rets ↔
      ∀ ret ∈ rets, ¬ ret ≤ 0 := by
  have hfits := p.fits
  have hlen := p.length_bytes
  rw [recvStart, recvTcpPacket_eq, Status.map] at hv ⊢
  apply clean_iff (InsidePacket p later) _ _ _ _ hv
  · intro left s h
    have hleft := h.left
    exact ⟨by simp only [recvCalls]; omega, h.count_le⟩
  · intro left s ret h hf hlow hhigh
    have hleft := h.left
    have hcount := h.count_le
    obtain ⟨n, rfl⟩ := Int.eq_ofNat_of_zero_le (show 0 ≤ ret by omega)
    have hn : n ≤ recvCalls.limit s := by omega
    have hrem : n ≤ s.1.bytesRemaining := le_trans hn (Nat.min_le_left _ _)
    rcases h.consuming.result hn (by omega) with ⟨t, ht, htc, htb⟩ | ⟨-, hret⟩
    · exact .inl ⟨t, ht, htc, by simp only [Int.toNat_natCast]; omega⟩
    · exact .inr hret
  · intro left s ret h hf hlow
    have hcount := h.count_le
    have hleft := h.left
    obtain ⟨t, ht⟩ := recv_result_of_failed (s.2.take ret.toNat) hlow hf
      h.consuming.reads.pending (by omega)
    rw [recvCalls_result, ht, Status.map]
    exact not_false
  · exact ⟨consuming_initial _ buff, Nat.zero_add _⟩

/-- The send loop is clean exactly when no call returns `-1`. -/
theorem send_clean_iff {p : Packet} {buff : Memory}
    (hb : buff.read 0 p.bytes.length = p.bytes) {rets : List ℤ}
    (hv : sendCalls.Valid (sendTcpPacket buff) rets) :
    sendCalls.Clean (· < 0) p.bytes.length (sendTcpPacket buff) rets ↔
      ∀ ret ∈ rets, ¬ ret < 0 := by
  have hfits := p.fits
  have hlen := p.length_bytes
  obtain ⟨s, hs, hw, hzero⟩ := sendTcpPacket_writes hb
  rw [hs] at hv ⊢
  apply clean_iff (fun left s => s.Writes p ∧ s.bytesSent + left = p.bytes.length)
    _ _ _ ⟨hw, by omega⟩ hv
  · intro left s h
    have hc := h.1.counters
    exact ⟨by simp only [sendCalls]; omega, by simp only [sendCalls]; omega⟩
  · intro left s ret h hf hlow hhigh
    have hc := h.1.counters
    obtain ⟨n, rfl⟩ := Int.eq_ofNat_of_zero_le (show 0 ≤ ret by omega)
    have hn : n ≤ s.bytesRemaining := by simpa [sendCalls] using hhigh
    rw [sendCalls_result]
    rcases h.1.result hn with ⟨t, ht, htw, htb⟩ | ⟨-, hret⟩
    · exact .inl ⟨t, ht, htw, by simp only [Int.toNat_natCast]; omega⟩
    · exact .inr ⟨_, _, hret⟩
  · intro left s ret h hf hlow
    have hc := h.1.counters
    obtain rfl : ret = -1 := by omega
    obtain ⟨t, ht⟩ := send_result_of_failed h.1.pending (by omega)
    rw [sendCalls_result, ht]
    exact not_false

/-- Where the receive loop and the send loop meet no failing call, each call is passed a
pointer into the buffer and at most the bytes left, and otherwise the loop goes on after
the failure: either function fails cleanly exactly when no call fails. -/
theorem framing_clean_iff (p : Packet) (buff : Memory) :
    (∀ (later : Bytes) (rets : List ℤ),
      recvCalls.Valid (recvStart buff (p.bytes ++ later)) rets →
      (recvCalls.Clean (· ≤ 0) p.bytes.length (recvStart buff (p.bytes ++ later)) rets ↔
        ∀ ret ∈ rets, ¬ ret ≤ 0)) ∧
    (buff.read 0 p.bytes.length = p.bytes → ∀ rets : List ℤ,
      sendCalls.Valid (sendTcpPacket buff) rets →
      (sendCalls.Clean (· < 0) p.bytes.length (sendTcpPacket buff) rets ↔
        ∀ ret ∈ rets, ¬ ret < 0)) := by
  constructor
  · intro later rets hv
    exact recv_clean_iff p buff later hv
  · intro hb rets hv
    exact send_clean_iff hb hv

theorem framing_clean_iff_shutdown :
    recvCalls.Clean (· ≤ 0) 5 (recvStart (fun _ => 7) (shutdownPacket.bytes ++ [3])) [2, 3] ∧
      sendCalls.Clean (· < 0) 5 (sendTcpPacket (Memory.ofBytes [2])) [4, 0, 1] :=
  ⟨((framing_clean_iff shutdownPacket (fun _ => 7)).1 [3] [2, 3] (by decide +kernel)).mpr
      (by decide),
    ((framing_clean_iff shutdownPacket (Memory.ofBytes [2])).2 (by decide +kernel) [4, 0, 1]
      (by decide +kernel)).mpr (by decide)⟩

/-- After a first `-1` the next call gets a pointer before the buffer and a larger count;
after a `0` the same call is made again. -/
theorem framing_not_clean :
    (recvCalls.Valid (recvStart (fun _ => 0) shutdownPacket.bytes) [-1] ∧
      ¬ recvCalls.Clean (· ≤ 0) 5 (recvStart (fun _ => 0) shutdownPacket.bytes) [-1]) ∧
    (recvCalls.Valid (recvStart (fun _ => 0) shutdownPacket.bytes) [0, 0] ∧
      ¬ recvCalls.Clean (· ≤ 0) 5 (recvStart (fun _ => 0) shutdownPacket.bytes) [0, 0]) ∧
    sendCalls.Valid (sendTcpPacket (Memory.ofBytes [2])) [-1] ∧
      ¬ sendCalls.Clean (· < 0) 5 (sendTcpPacket (Memory.ofBytes [2])) [-1] := by
  decide +kernel

/-- Every byte a fragmentation makes the receive loop store has an index below `limit`. -/
def StoresInside (limit : ℕ) : Status (Recv × Bytes) → List ℤ → Prop
  | _, [] => True
  | .calling s, ret :: rets =>
    (∀ i < ret.toNat, addSize s.1.bytesReceived i < limit) ∧
      StoresInside limit (recvCalls.result s ret) rets
  | .returned _ _, _ :: _ => True
  | .died _, _ :: _ => True

/-- Positive results that the calls on this stream can return. -/
def Fragmentation (buff : Memory) (stream : Bytes) (rets : List ℤ) : Prop :=
  (∀ ret ∈ rets, 1 ≤ ret) ∧ recvCalls.Valid (recvStart buff stream) rets

/-- As long as the loop cannot get past the buffer, it stores inside it. -/
theorem storesInside_of_consuming {stream : Bytes} {limit : ℕ} (hlimit : limit ≤ 2 ^ 31)
    (hbound : ∀ s, Consuming stream s →
      s.1.bytesReceived + min s.1.bytesRemaining s.2.length ≤ limit)
    {s : Recv × Bytes} {rets : List ℤ} (h : Consuming stream s) (hpos : ∀ ret ∈ rets, 1 ≤ ret)
    (hv : recvCalls.Valid (.calling s) rets) : StoresInside limit (.calling s) rets := by
  induction rets generalizing s with
  | nil => trivial
  | cons ret rets ih =>
    obtain ⟨-, hhigh, hv⟩ := hv
    rw [List.forall_mem_cons] at hpos
    obtain ⟨n, rfl⟩ := Int.eq_ofNat_of_zero_le (show 0 ≤ ret by omega)
    have hn : n ≤ recvCalls.limit s := by omega
    have hle : s.1.bytesReceived + n ≤ limit := le_trans (Nat.add_le_add_left hn _) (hbound s h)
    constructor
    · intro i hi
      rw [Int.toNat_natCast] at hi
      rw [addSize_of_lt (by omega)]
      omega
    · rcases h.result hn (by omega) with ⟨t, ht, htc, -⟩ | ⟨-, r, m, hret⟩
      · rw [ht] at hv ⊢
        exact ih htc hpos.2 hv
      · rw [hret]
        cases rets <;> trivial

/-- A header that declares more than fits makes the second call ask for at least one byte
too many. -/
theorem payload_call_of_large {stream : Bytes} (buff : Memory)
    (hlen : sizeofTcpHdr ≤ stream.length)
    (hlarge : maxLen - sizeofTcpHdr < ofSigned (declaredLen stream)) :
    ∃ t, recvCalls.result (⟨buff, 0, sizeofTcpHdr, false⟩, stream) sizeofTcpHdr = .calling t ∧
      t.1.bytesReceived = sizeofTcpHdr ∧ maxLen - sizeofTcpHdr < t.1.bytesRemaining ∧
      t.2.length = stream.length - sizeofTcpHdr := by
  have hn : sizeofTcpHdr ≤ recvCalls.limit (⟨buff, 0, sizeofTcpHdr, false⟩, stream) :=
    le_min le_rfl hlen
  rcases (consuming_initial stream buff).result hn (by simp [sizeofTcpHdr])
    with ⟨t, ht, htc, htb⟩ | ⟨htotal, -⟩
  · have hrest := congrArg List.length htc.rest
    rw [List.length_drop] at hrest
    simp only [Nat.zero_add] at htb
    refine ⟨t, ht, htb, ?_, by omega⟩
    have hpend := htc.reads.pending
    cases hph : t.1.inPayload with
    | false =>
      have hh := htc.reads.header hph
      omega
    | true =>
      have hh := (htc.reads.payload hph).2
      omega
  · simp only [Nat.zero_add] at htotal
    omega

/-- A long stream behind such a header: the second call can return one byte too many. -/
theorem exists_not_storesInside {stream : Bytes} (buff : Memory) (hlong : maxLen < stream.length)
    (hlarge : maxLen - sizeofTcpHdr < ofSigned (declaredLen stream)) :
    ∃ rets, Fragmentation buff stream rets ∧
      ¬ StoresInside maxLen (recvStart buff stream) rets := by
  simp only [maxLen] at hlong
  obtain ⟨t, ht, hreceived, hremaining, hrest⟩ := payload_call_of_large buff
    (by simp only [sizeofTcpHdr]; omega) hlarge
  simp only [maxLen, sizeofTcpHdr] at hreceived hremaining hrest
  have hstart : recvStart buff stream =
      .calling (⟨buff, 0, sizeofTcpHdr, false⟩, stream) := rfl
  have hlimit : (4092 : ℤ) ≤ recvCalls.limit t := by
    simp only [recvCalls]
    omega
  have hfirst : (5 : ℤ) ≤ recvCalls.limit (⟨buff, 0, sizeofTcpHdr, false⟩, stream) := by
    simp only [recvCalls, sizeofTcpHdr]
    omega
  refine ⟨[5, 4092], ⟨by decide, ?_⟩, ?_⟩
  · rw [hstart]
    refine ⟨by decide, hfirst, ?_⟩
    rw [show (5 : ℤ) = (sizeofTcpHdr : ℕ) from rfl, ht]
    exact ⟨by decide, hlimit, trivial⟩
  · intro hstores
    rw [hstart, StoresInside, show (5 : ℤ) = (sizeofTcpHdr : ℕ) from rfl, ht] at hstores
    have hlast := hstores.2.1 4091 (by decide)
    rw [hreceived] at hlast
    exact absurd hlast (by decide)

/-- The stream ends, or the packet does, before the loop can leave the buffer. -/
theorem Consuming.reach_le {stream : Bytes} {s : Recv × Bytes} (h : Consuming stream s)
    (hfits : stream.length ≤ maxLen ∨
      (0 ≤ declaredLen stream ∧ declaredLen stream ≤ maxLen - sizeofTcpHdr)) :
    s.1.bytesReceived + min s.1.bytesRemaining s.2.length ≤ maxLen := by
  have hrest := congrArg List.length h.rest
  have hpos := h.reads.position
  rw [List.length_drop] at hrest
  rcases hfits with hshort | ⟨hlow, hhigh⟩
  · omega
  · cases hph : s.1.inPayload with
    | false =>
      have hh := h.reads.header hph
      simp only [sizeofTcpHdr, maxLen] at hh ⊢
      omega
    | true =>
      have hh := (h.reads.payload hph).2
      rw [ofSigned] at hh
      simp only [sizeofTcpHdr, maxLen] at hh hhigh ⊢
      omega

/-- What the receive loop stores stays inside the `4096` bytes of `buff` for every
fragmentation of a stream exactly when the stream is too short to leave it, or its header
declares a payload that fits. -/
theorem storesInside_iff (buff : Memory) (stream : Bytes) :
    (∀ rets, Fragmentation buff stream rets →
      StoresInside maxLen (recvStart buff stream) rets) ↔
    stream.length ≤ maxLen ∨
      (0 ≤ declaredLen stream ∧ declaredLen stream ≤ maxLen - sizeofTcpHdr) := by
  constructor
  · intro h
    by_contra hc
    obtain ⟨hlong, hhdr⟩ := not_or.mp hc
    have hbounds := hdrLen_bounds (Memory.ofBytes stream)
    rw [← declaredLen] at hbounds
    have hlarge : maxLen - sizeofTcpHdr < ofSigned (declaredLen stream) := by
      rw [ofSigned]
      simp only [maxLen, sizeofTcpHdr] at hhdr ⊢
      omega
    obtain ⟨rets, hf, hout⟩ := exists_not_storesInside buff (not_le.mp hlong) hlarge
    exact hout (h rets hf)
  · intro h rets hf
    rw [recvStart, recvTcpPacket_eq, Status.map]
    apply storesInside_of_consuming (by decide) _ (consuming_initial stream buff) hf.1 hf.2
    intro s hs
    exact hs.reach_le h

/-- A header that declares `len` bytes, and one byte too many behind it. -/
def oversized (len : ℕ) : Bytes := subscribeAction :: le32 len ++ List.replicate 4092 97

/-- A length of five thousand, and a length of minus one. -/
theorem stores_outside :
    (Fragmentation (fun _ => 0) (oversized 5000) [5, 4092] ∧
      ¬ StoresInside maxLen (recvStart (fun _ => 0) (oversized 5000)) [5, 4092]) ∧
    Fragmentation (fun _ => 0) (oversized (2 ^ 32 - 1)) [5, 4092] ∧
      ¬ StoresInside maxLen (recvStart (fun _ => 0) (oversized (2 ^ 32 - 1))) [5, 4092] := by
  refine ⟨⟨⟨by decide, by decide +kernel⟩, ?_⟩, ⟨by decide, by decide +kernel⟩, ?_⟩
  · intro h
    have hlast := h.2.1 4091 (by decide)
    revert hlast
    decide +kernel
  · intro h
    have hlast := h.2.1 4091 (by decide)
    revert hlast
    decide +kernel

end MessageBroker.FramingFailures
