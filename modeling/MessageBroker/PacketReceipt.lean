import MessageBroker.PacketFraming

/-!
# Receiving one packet

A call of `recv_tcp_packet` takes the packet at the front of a stream, in whatever
fragments `recv` delivers it, and changes nothing of the buffer behind the packet.
-/
namespace MessageBroker.PacketReceipt
open ByteStrings WireFormat PacketFraming

/-- Calls of `recv` take bytes off the stream, as many as they like, until the function returns. -/
inductive Receives : Status Recv → Bytes → ℤ → Memory → Bytes → Prop
  | returned (ret : ℤ) (buff : Memory) (stream : Bytes) :
      Receives (.returned ret buff) stream ret buff stream
  | call {s : Recv} {n : ℕ} {stream rest : Bytes} {ret : ℤ} {buff : Memory} (positive : 1 ≤ n)
      (asked : n ≤ s.bytesRemaining) (available : n ≤ stream.length)
      (next : Receives (s.result n (stream.take n)) (stream.drop n) ret buff rest) :
      Receives (.calling s) stream ret buff rest

variable {p : Packet} {rest : Bytes} {buff : Memory}

/-- The first `n` bytes of the packet are stored, and behind them is what was there before. -/
def Holds (p : Packet) (buff : Memory) (n : ℕ) (m : Memory) : Prop :=
  ∀ a < 2 ^ 64, m a = buff.store 0 (p.bytes.take n) a

/-- What is known between two calls while the packet is received. -/
def Midway (p : Packet) (rest : Bytes) (buff : Memory) : Status Recv → Bytes → Prop
  | .calling s, stream => s.Reads (p.bytes ++ rest) ∧
      stream = (p.bytes ++ rest).drop s.bytesReceived ∧ Holds p buff s.bytesReceived s.buff
  | .returned ret m, stream => ret = p.bytes.length ∧ stream = rest ∧
      Holds p buff p.bytes.length m
  | .died _, _ => False

/-- The buffer of a function between its calls. -/
def bufferOf : Status Recv → Option Memory
  | .calling s => some s.buff
  | .returned _ m => some m
  | .died _ => none

private theorem bufferOf_settle (s : Recv) : bufferOf s.settle = some s.buff := by
  simp only [Recv.settle]
  split_ifs <;> rfl

private theorem midway_initial (p : Packet) (rest : Bytes) (buff : Memory) :
    Midway p rest buff (recvTcpPacket buff) (p.bytes ++ rest) := by
  refine ⟨Recv.reads_initial _ _, rfl, ?_⟩
  intro a _
  simp [Memory.store]

private theorem midway_call {s : Recv} {stream : Bytes} (h : Midway p rest buff (.calling s) stream)
    {n : ℕ} (asked : n ≤ s.bytesRemaining) (available : n ≤ stream.length) :
    Midway p rest buff (s.result n (stream.take n)) (stream.drop n) := by
  obtain ⟨hreads, rfl, hholds⟩ := h
  have hle := hreads.end_le
  have hfits := p.fits
  have hlen := p.length_bytes
  rw [List.length_drop] at available
  have hdata : ((p.bytes ++ rest).drop s.bytesReceived).take n =
      (p.bytes.drop s.bytesReceived).take n := by
    rw [List.drop_append_of_le_length (by omega), List.take_append_of_le_length]
    rw [List.length_drop]
    omega
  have hcount : ((p.bytes.drop s.bytesReceived).take n).length = n := by
    rw [List.length_take, List.length_drop]
    omega
  rw [hdata]
  -- whatever the function does next, its buffer is the old one with the fragment appended
  have hstored : ∀ m, bufferOf (s.result n ((p.bytes.drop s.bytesReceived).take n)) = some m →
      Holds p buff (s.bytesReceived + n) m := by
    intro m hm a ha
    have hres := Recv.result_of_count (s := s) ((p.bytes.drop s.bytesReceived).take n) (by omega)
      (by omega) (by omega)
    rw [hcount] at hres
    rw [hres, bufferOf_settle] at hm
    cases hm
    have htake : (p.bytes.take s.bytesReceived).length = s.bytesReceived := by
      rw [List.length_take]
      omega
    have hroom : s.bytesReceived + ((p.bytes.drop s.bytesReceived).take n).length < 2 ^ 64 := by
      omega
    have hsame := Memory.store_append buff 0 (p.bytes.take s.bytesReceived)
      ((p.bytes.drop s.bytesReceived).take n)
    rw [htake, Nat.zero_add, ← List.take_add] at hsame
    rw [← hsame]
    refine (storeAt_eq_store hroom ha).trans ?_
    rw [Memory.store, Memory.store, hholds a ha]
  rcases hreads.result_packet asked hdata.symm with
    ⟨t, ht, htreads, hreceived⟩ | ⟨htotal, m, hm, -⟩
  · rw [ht] at hstored ⊢
    refine ⟨htreads, ?_, ?_⟩
    · rw [List.drop_drop, hreceived]
    · rw [hreceived]
      exact hstored _ rfl
  · rw [hm] at hstored ⊢
    rw [htotal] at hstored
    refine ⟨rfl, ?_, hstored m rfl⟩
    rw [List.drop_drop, htotal, List.drop_left]

private theorem midway_receives {st : Status Recv} {stream rest' : Bytes} {ret : ℤ} {m : Memory}
    (hr : Receives st stream ret m rest') (h : Midway p rest buff st stream) :
    Midway p rest buff (.returned ret m) rest' := by
  induction hr with
  | returned ret m stream => exact h
  | call positive asked available next ih => exact ih (midway_call h asked available)

/-- However it is fragmented, the packet at the front of the stream is taken off it and
stored at the front of the buffer. -/
theorem receives_packet {ret : ℤ} {m : Memory} {rest' : Bytes}
    (h : Receives (recvTcpPacket buff) (p.bytes ++ rest) ret m rest') :
    ret = p.bytes.length ∧ rest' = rest ∧ ∀ a < 2 ^ 64, m a = buff.store 0 p.bytes a := by
  obtain ⟨hret, hrest, hholds⟩ := midway_receives h (midway_initial p rest buff)
  rw [Holds, List.take_length] at hholds
  exact ⟨hret, hrest, hholds⟩

private theorem exists_receives_of_midway {st : Status Recv} {stream : Bytes} {k : ℕ}
    (h : Midway p rest buff st stream) (hk : stream.length ≤ rest.length + k) :
    ∃ ret m, Receives st stream ret m rest := by
  induction k generalizing st stream with
  | zero =>
    cases st with
    | calling s =>
      obtain ⟨hreads, rfl, -⟩ := h
      have hle := hreads.end_le
      have hpending := hreads.pending
      rw [List.length_drop, List.length_append] at hk
      omega
    | returned ret m =>
      obtain ⟨-, rfl, -⟩ := h
      exact ⟨ret, m, .returned ret m _⟩
    | died msg => exact h.elim
  | succ k ih =>
    cases st with
    | calling s =>
      have hreads := h.1
      have hle := hreads.end_le
      have hpending := hreads.pending
      have hstream : 1 ≤ stream.length := by
        rw [h.2.1, List.length_drop, List.length_append]
        omega
      obtain ⟨n, hpos, hasked, havailable⟩ :
          ∃ n, 1 ≤ n ∧ n ≤ s.bytesRemaining ∧ n ≤ stream.length := ⟨1, le_rfl, hpending, hstream⟩
      obtain ⟨ret, m, hr⟩ := ih (midway_call h hasked havailable) (by rw [List.length_drop]; omega)
      exact ⟨ret, m, .call hpos hasked havailable hr⟩
    | returned ret m =>
      obtain ⟨-, rfl, -⟩ := h
      exact ⟨ret, m, .returned ret m _⟩
    | died msg => exact h.elim

/-- The packet can be received: each call may deliver one byte. -/
theorem exists_receives (p : Packet) (rest : Bytes) (buff : Memory) :
    ∃ ret m, Receives (recvTcpPacket buff) (p.bytes ++ rest) ret m rest := by
  have hlen : (p.bytes ++ rest).length ≤ rest.length + p.bytes.length := by
    rw [List.length_append]
    omega
  exact exists_receives_of_midway (midway_initial p rest buff) hlen

end MessageBroker.PacketReceipt
