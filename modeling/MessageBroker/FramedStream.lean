import MessageBroker.ListFacts
import MessageBroker.PacketFraming
import MessageBroker.TransitionRuns

/-!
# A stream of packets under any fragmentation

One side calls `send_tcp_packet` once for each packet, the other side calls
`recv_tcp_packet` again and again, and between them is a reliable byte stream. Every
system call moves as many bytes as it likes, and the two sides interleave at will.
-/
namespace MessageBroker.FramedStream
open ListFacts ByteStrings WireFormat PacketFraming TransitionRuns

/-- The packets whose send has not returned, the calls in progress, the bytes between the
two sides, what the calls returned, and how many bytes the receiver has consumed. -/
structure Link where
  outbox : List Packet
  sending : Option Send
  sent : List ℤ
  wire : Bytes
  receiving : Option Recv
  received : List (ℤ × Memory)
  consumed : ℕ

inductive Event
  | callSend (buff : Memory)
  | sendSome (n : ℕ)
  | callRecv (buff : Memory)
  | recvSome (n : ℕ)

inductive Halt
  | disabled
  | died (msg : String)

namespace Link

def initial (packets : List Packet) : Link := ⟨packets, none, [], [], none, [], 0⟩

def afterSend (s : Link) : Status Send → Except Halt (Link × Unit)
  | .calling c => .ok ({ s with sending := some c }, ())
  | .returned ret _ =>
    .ok ({ s with sending := none, outbox := s.outbox.tail, sent := s.sent ++ [ret] }, ())
  | .died msg => .error (.died msg)

def afterRecv (s : Link) : Status Recv → Except Halt (Link × Unit)
  | .calling c => .ok ({ s with receiving := some c }, ())
  | .returned ret buff =>
    .ok ({ s with receiving := none, received := s.received ++ [(ret, buff)] }, ())
  | .died msg => .error (.died msg)

/-- How far the send in progress is. -/
def bytesSent (s : Link) : ℕ := s.sending.elim 0 Send.bytesSent

/-- How far the receive in progress is. -/
def bytesReceived (s : Link) : ℕ := s.receiving.elim 0 Recv.bytesReceived

/-- The bytes `send` has not yet been able to pass on. -/
def unsent (s : Link) : Bytes := (s.outbox.flatMap Packet.bytes).drop s.bytesSent

end Link

open Link

def step : Transition Link Event Unit Halt
  | s, .callSend buff =>
    match s.outbox, s.sending with
    | p :: _, none =>
      if buff.read 0 p.bytes.length = p.bytes then s.afterSend (sendTcpPacket buff)
      else .error .disabled
    | _, _ => .error .disabled
  | s, .sendSome n =>
    match s.sending with
    | some c =>
      if 1 ≤ n ∧ n ≤ c.bytesRemaining then
        { s with wire := s.wire ++ c.taken n }.afterSend (c.result n)
      else .error .disabled
    | none => .error .disabled
  | s, .callRecv buff =>
    match s.receiving with
    | none => s.afterRecv (recvTcpPacket buff)
    | some _ => .error .disabled
  | s, .recvSome n =>
    match s.receiving with
    | some c =>
      if 1 ≤ n ∧ n ≤ c.bytesRemaining ∧ n ≤ s.wire.length then
        { s with wire := s.wire.drop n, consumed := s.consumed + n }.afterRecv
          (c.result n (s.wire.take n))
      else .error .disabled
    | none => .error .disabled

private theorem step_callSend {s : Link} {p : Packet} {rest : List Packet} {buff : Memory}
    (ho : s.outbox = p :: rest) (hs : s.sending = none)
    (hb : buff.read 0 p.bytes.length = p.bytes) :
    step s (.callSend buff) = s.afterSend (sendTcpPacket buff) := by
  simp only [step, ho, hs, hb, ↓reduceIte]

private theorem step_sendSome {s : Link} {c : Send} {n : ℕ} (hs : s.sending = some c)
    (hn : 1 ≤ n ∧ n ≤ c.bytesRemaining) : step s (.sendSome n) =
      { s with wire := s.wire ++ c.taken n }.afterSend (c.result n) := by
  simp only [step, hs, hn, and_self, ↓reduceIte]

private theorem step_callRecv {s : Link} (hr : s.receiving = none) (buff : Memory) :
    step s (.callRecv buff) = s.afterRecv (recvTcpPacket buff) := by
  simp only [step, hr]

private theorem step_recvSome {s : Link} {c : Recv} {n : ℕ} (hr : s.receiving = some c)
    (hn : 1 ≤ n ∧ n ≤ c.bytesRemaining ∧ n ≤ s.wire.length) : step s (.recvSome n) =
      { s with wire := s.wire.drop n, consumed := s.consumed + n }.afterRecv
        (c.result n (s.wire.take n)) := by
  simp only [step, hr, hn, and_self, ↓reduceIte]

/-- A call of `recv_tcp_packet` returned with exactly this packet in its buffer. -/
def Received (r : ℤ × Memory) (p : Packet) : Prop :=
  r.1 = p.bytes.length ∧ r.2.read 0 p.bytes.length = p.bytes

/-- The bytes of the packets that are not completely received. -/
def pendingStream (packets : List Packet) (s : Link) : Bytes :=
  (packets.drop s.received.length).flatMap Packet.bytes

structure StreamInvariant (packets : List Packet) (s : Link) : Prop where
  outbox : s.outbox = packets.drop s.sent.length
  sent : s.sent = (packets.take s.sent.length).map (fun p => (p.bytes.length : ℤ))
  writes : ∀ c, s.sending = some c → ∃ p rest, s.outbox = p :: rest ∧ c.Writes p
  received : List.Forall₂ Received s.received (packets.take s.received.length)
  reads : ∀ c, s.receiving = some c → c.Reads (pendingStream packets s)
  conservation : s.wire ++ s.unsent = (pendingStream packets s).drop s.bytesReceived
  consumed : s.consumed =
    ((packets.take s.received.length).flatMap Packet.bytes).length + s.bytesReceived
  accepted : s.consumed + s.wire.length =
    ((packets.take s.sent.length).flatMap Packet.bytes).length + s.bytesSent

private theorem streamInvariant_initial (packets : List Packet) :
    StreamInvariant packets (initial packets) where
  outbox := rfl
  sent := by simp [initial]
  writes := by simp [initial]
  received := by simp [initial]
  reads := by simp [initial]
  conservation := rfl
  consumed := by simp [initial, bytesReceived]
  accepted := by simp [initial, bytesSent]

variable {packets : List Packet} {s : Link}

/-- Either the event cannot happen, or the step succeeds and keeps the invariant. -/
def Preserves (packets : List Packet) (s : Link) (i : Event) : Prop :=
  step s i = .error .disabled ∨
    ∃ s', step s i = .ok (s', ()) ∧ StreamInvariant packets s'

private theorem preserves_callSend (h : StreamInvariant packets s) (buff : Memory) :
    Preserves packets s (.callSend buff) := by
  cases ho : s.outbox with
  | nil => exact .inl (by simp [step, ho])
  | cons p rest =>
    cases hs : s.sending with
    | some c => exact .inl (by simp [step, ho, hs])
    | none =>
      by_cases hb : buff.read 0 p.bytes.length = p.bytes
      · obtain ⟨c, hc, hw, hzero⟩ := sendTcpPacket_writes hb
        right
        refine ⟨{ s with sending := some c }, ?_, ?_⟩
        · rw [step_callSend ho hs hb, hc, afterSend]
        · have hcons := h.conservation
          have hacc := h.accepted
          simp only [unsent, Link.bytesSent, hs, Option.elim_none] at hcons hacc
          refine ⟨h.outbox, h.sent, ?_, h.received, h.reads, ?_, h.consumed, ?_⟩
          · intro d hd
            cases hd
            exact ⟨p, rest, ho, hw⟩
          · simp only [unsent, Link.bytesSent, Option.elim_some, hzero]
            exact hcons
          · simp only [Link.bytesSent, Option.elim_some, hzero]
            exact hacc
      · exact .inl (by simp [step, ho, hs, hb])

private theorem preserves_sendSome (h : StreamInvariant packets s) (n : ℕ) :
    Preserves packets s (.sendSome n) := by
  cases hs : s.sending with
  | none => exact .inl (by simp [step, hs])
  | some c =>
    by_cases hn : 1 ≤ n ∧ n ≤ c.bytesRemaining
    · obtain ⟨p, rest, ho, hw⟩ := h.writes c hs
      have hcons := h.conservation
      have hacc := h.accepted
      simp only [unsent, Link.bytesSent, hs, Option.elim_some, ho, List.flatMap_cons] at hcons hacc
      have hle : c.bytesSent + n ≤ p.bytes.length := by
        have := hw.counters
        omega
      have htaken := hw.taken_eq hn.2
      have hlen : (c.taken n).length = n := by simp [Send.taken]
      right
      rcases hw.result hn.2 with ⟨t, ht, htw, htb⟩ | ⟨hdone, hret⟩
      · refine ⟨{ s with wire := s.wire ++ c.taken n, sending := some t }, ?_, ?_⟩
        · rw [step_sendSome hs hn, ht, afterSend]
        · refine ⟨h.outbox, h.sent, ?_, h.received, h.reads, ?_, h.consumed, ?_⟩
          · intro d hd
            cases hd
            exact ⟨p, rest, ho, htw⟩
          · simp only [unsent, Link.bytesSent, Option.elim_some, ho, List.flatMap_cons, htb]
            rw [List.append_assoc, htaken, take_append_drop_add _ _ hle]
            exact hcons
          · simp only [Link.bytesSent, Option.elim_some, htb, List.length_append, hlen]
            omega
      · have hdrop := ho ▸ h.outbox
        refine ⟨{ s with
          wire := s.wire ++ c.taken n, sending := none, outbox := rest
          sent := s.sent ++ [(p.bytes.length : ℤ)] }, ?_, ?_⟩
        · rw [step_sendSome hs hn, hret, afterSend, ho, List.tail_cons]
        · refine ⟨?_, ?_, by simp, h.received, h.reads, ?_, h.consumed, ?_⟩
          · simp [drop_succ_of_drop hdrop.symm]
          · simp only [List.length_append, List.length_singleton, take_succ_of_drop hdrop.symm,
              List.map_append, List.map_singleton]
            rw [← h.sent]
          · simp only [unsent, Link.bytesSent, Option.elim_none, List.drop_zero]
            rw [List.append_assoc, htaken]
            have hjoin := take_append_drop_add p.bytes (rest.flatMap Packet.bytes) hle
            rw [hdone, List.drop_left] at hjoin
            rw [hjoin]
            exact hcons
          · simp only [Link.bytesSent, Option.elim_none, List.length_append, hlen,
              List.length_singleton, take_succ_of_drop hdrop.symm, List.flatMap_append,
              List.flatMap_cons, List.flatMap_nil, List.append_nil]
            omega
    · exact .inl (by simp [step, hs, hn])

private theorem preserves_callRecv (h : StreamInvariant packets s) (buff : Memory) :
    Preserves packets s (.callRecv buff) := by
  cases hr : s.receiving with
  | some c => exact .inl (by simp [step, hr])
  | none =>
    right
    refine ⟨{ s with receiving := some ⟨buff, 0, sizeofTcpHdr, false⟩ }, ?_, ?_⟩
    · rw [step_callRecv hr, recvTcpPacket_eq, afterRecv]
    · have hcons := h.conservation
      have hcount := h.consumed
      simp only [Link.bytesReceived, hr, Option.elim_none] at hcons hcount
      refine ⟨h.outbox, h.sent, h.writes, h.received, ?_, hcons, hcount, h.accepted⟩
      intro d hd
      cases hd
      exact Recv.reads_initial _ buff

/-- What the receiver waits for begins with the first packet it has not received. -/
theorem pendingStream_cons {p : Packet} {rest : List Packet}
    (h : packets.drop s.received.length = p :: rest) :
    pendingStream packets s = p.bytes ++ rest.flatMap Packet.bytes := by
  rw [pendingStream, h, List.flatMap_cons]

private theorem preserves_recvSome (h : StreamInvariant packets s) (n : ℕ) :
    Preserves packets s (.recvSome n) := by
  cases hr : s.receiving with
  | none => exact .inl (by simp [step, hr])
  | some c =>
    by_cases hn : 1 ≤ n ∧ n ≤ c.bytesRemaining ∧ n ≤ s.wire.length
    · obtain ⟨h1, hrem, hwire⟩ := hn
      have hreads := h.reads c hr
      have hcons := h.conservation
      have hcount := h.consumed
      have hacc := h.accepted
      simp only [Link.bytesReceived, hr, Option.elim_some] at hcons hcount
      have hbound : c.bytesReceived + n ≤ (pendingStream packets s).length := by
        have hlen := congrArg List.length hcons
        simp only [List.length_append, List.length_drop] at hlen
        omega
      have hdata : s.wire.take n = ((pendingStream packets s).drop c.bytesReceived).take n := by
        rw [← hcons, List.take_append_of_le_length hwire]
      have hleft : s.wire.drop n ++ s.unsent =
          (pendingStream packets s).drop (c.bytesReceived + n) := by
        rw [← List.drop_append_of_le_length hwire, hcons, List.drop_drop]
      cases hp : packets.drop s.received.length with
      | nil =>
        rw [pendingStream, hp] at hbound
        simp at hbound
        omega
      | cons p rest =>
        right
        rw [pendingStream_cons hp] at hreads hdata
        rcases hreads.result_packet hrem hdata with ⟨t, ht, htr, htb⟩ | ⟨htotal, m, hm, hmr⟩
        · refine ⟨{ s with
            wire := s.wire.drop n, consumed := s.consumed + n, receiving := some t }, ?_, ?_⟩
          · rw [step_recvSome hr ⟨h1, hrem, hwire⟩, ht, afterRecv]
          · refine ⟨h.outbox, h.sent, h.writes, h.received, ?_, ?_, ?_, ?_⟩
            · intro d hd
              cases hd
              exact pendingStream_cons hp ▸ htr
            · simp only [Link.bytesReceived, Option.elim_some, htb]
              exact hleft
            · simp only [Link.bytesReceived, Option.elim_some, htb]
              omega
            · simp only [List.length_drop]
              rw [Link.bytesSent] at hacc ⊢
              simp only
              omega
        · refine ⟨{ s with
            wire := s.wire.drop n, consumed := s.consumed + n, receiving := none
            received := s.received ++ [((p.bytes.length : ℤ), m)] }, ?_, ?_⟩
          · rw [step_recvSome hr ⟨h1, hrem, hwire⟩, hm, afterRecv]
          · have hnext := drop_succ_of_drop hp
            refine ⟨h.outbox, h.sent, h.writes, ?_, by simp, ?_, ?_, ?_⟩
            · simp only [List.length_append, List.length_singleton, take_succ_of_drop hp]
              exact List.rel_append h.received (.cons ⟨rfl, hmr⟩ .nil)
            · simp only [Link.bytesReceived, Option.elim_none, List.drop_zero, pendingStream,
                List.length_append, List.length_singleton, hnext]
              rw [htotal, pendingStream_cons hp, List.drop_left] at hleft
              exact hleft
            · simp only [Link.bytesReceived, Option.elim_none, List.length_append,
                List.length_singleton, take_succ_of_drop hp, List.flatMap_append,
                List.flatMap_cons, List.flatMap_nil, List.append_nil]
              omega
            · simp only [List.length_drop]
              rw [Link.bytesSent] at hacc ⊢
              simp only
              omega
    · exact .inl (by simp [step, hr, hn])

private theorem preserves_step (h : StreamInvariant packets s) (i : Event) :
    Preserves packets s i := by
  cases i with
  | callSend buff => exact preserves_callSend h buff
  | sendSome n => exact preserves_sendSome h n
  | callRecv buff => exact preserves_callRecv h buff
  | recvSome n => exact preserves_recvSome h n

private theorem streamInvariant_step {i : Event} {s' : Link} {o : Unit}
    (h : StreamInvariant packets s) (hs : step s i = .ok (s', o)) : StreamInvariant packets s' := by
  rcases preserves_step h i with he | ⟨t, ht, hinv⟩
  · rw [hs] at he
    cases he
  · rw [hs] at ht
    cases ht
    exact hinv

private theorem streamInvariant_reachable (h : Reachable step (initial packets) s) :
    StreamInvariant packets s :=
  h.invariant (streamInvariant_initial packets) (fun _ _ _ _ => streamInvariant_step)

structure Lossless (packets : List Packet) (s : Link) : Prop where
  /-- Each return left exactly its packet in the buffer and returned its size. -/
  received : List.Forall₂ Received s.received (packets.take s.received.length)
  /-- Nothing behind the packet in progress has been consumed. -/
  position : s.consumed =
    ((packets.take s.received.length).flatMap Packet.bytes).length + s.bytesReceived
  /-- A pending `recv` asks for bytes of its packet that are still missing. -/
  pendingRecv : ∀ c, s.receiving = some c → 0 < c.bytesRemaining ∧
    c.bytesReceived + c.bytesRemaining ≤ maxLen ∧
    ∀ p, packets[s.received.length]? = some p →
      c.bytesReceived + c.bytesRemaining ≤ p.bytes.length ∧
      c.buff.read 0 c.bytesReceived = p.bytes.take c.bytesReceived
  sent : s.sent = (packets.take s.sent.length).map (fun p => (p.bytes.length : ℤ))
  accepted : s.consumed + s.wire.length =
    ((packets.take s.sent.length).flatMap Packet.bytes).length + s.bytesSent
  /-- A pending `send` offers the bytes of its packet that are still to be sent. -/
  pendingSend : ∀ c, s.sending = some c → ∃ p, packets[s.sent.length]? = some p ∧
    0 < c.bytesRemaining ∧ c.bytesSent + c.bytesRemaining = p.bytes.length

theorem StreamInvariant.lossless (h : StreamInvariant packets s)
    (hb : ∀ p ∈ packets, p.Buffered) : Lossless packets s := by
  refine ⟨h.received, h.consumed, ?_, h.sent, h.accepted, ?_⟩
  · intro c hc
    have hr := h.reads c hc
    refine ⟨hr.pending, ?_⟩
    cases hp : packets.drop s.received.length with
    | nil =>
      have hnil : pendingStream packets s = [] := by rw [pendingStream, hp, List.flatMap_nil]
      have hpos := hr.position
      rw [hnil, List.length_nil] at hpos
      have hphase : c.inPayload = false := by
        by_contra hph
        have := (hr.payload (by simpa using hph)).1
        simp only [sizeofTcpHdr] at this
        omega
      have hhdr := hr.header hphase
      rw [List.drop_eq_nil_iff] at hp
      refine ⟨by simp only [maxLen, sizeofTcpHdr] at *; omega, ?_⟩
      intro p hget
      rw [List.getElem?_eq_none hp] at hget
      cases hget
    | cons p rest =>
      have hmem : p ∈ packets := List.mem_of_mem_drop (hp ▸ List.mem_cons_self)
      have hbuf := hb p hmem
      rw [Packet.Buffered] at hbuf
      rw [pendingStream_cons hp] at hr
      have hle := hr.end_le
      refine ⟨by omega, ?_⟩
      intro q hq
      rw [getElem?_of_drop hp] at hq
      cases hq
      refine ⟨hle, ?_⟩
      rw [hr.stored, List.take_append_of_le_length (by omega)]
  · intro c hc
    obtain ⟨p, rest, ho, hw⟩ := h.writes c hc
    exact ⟨p, getElem?_of_drop (h.outbox ▸ ho), hw.pending, hw.counters⟩

/-- Both sides have nothing left to do. -/
def Quiet (s : Link) : Prop := ∀ i, step s i = .error .disabled

theorem Quiet.receiving (hq : Quiet s) : ∃ c, s.receiving = some c := by
  cases hr : s.receiving with
  | some c => exact ⟨c, rfl⟩
  | none =>
    have hd := hq (.callRecv (Memory.ofBytes []))
    rw [step_callRecv hr, recvTcpPacket_eq, afterRecv] at hd
    cases hd

theorem Quiet.wire (h : StreamInvariant packets s) (hq : Quiet s) : s.wire = [] := by
  obtain ⟨c, hc⟩ := hq.receiving
  by_contra hne
  have hpos := List.length_pos_iff.mpr hne
  have hd := hq (.recvSome 1)
  rw [step_recvSome hc ⟨le_rfl, (h.reads c hc).pending, hpos⟩] at hd
  revert hd
  cases c.result 1 (s.wire.take 1) <;> simp [afterRecv]

theorem Quiet.outbox (h : StreamInvariant packets s) (hq : Quiet s) : s.outbox = [] := by
  cases ho : s.outbox with
  | nil => rfl
  | cons p rest =>
    exfalso
    cases hs : s.sending with
    | some d =>
      obtain ⟨q, rest', -, hw⟩ := h.writes d hs
      have hd := hq (.sendSome 1)
      rw [step_sendSome hs ⟨le_rfl, hw.pending⟩] at hd
      revert hd
      cases d.result 1 <;> simp [afterSend]
    | none =>
      obtain ⟨d, hd, -, -⟩ := sendTcpPacket_writes (Memory.read_ofBytes p.bytes)
      have hstep := hq (.callSend (Memory.ofBytes p.bytes))
      rw [step_callSend ho hs (Memory.read_ofBytes p.bytes), hd, afterSend] at hstep
      cases hstep

/-- Where no call can go on, every packet has been received. -/
theorem StreamInvariant.received_all (h : StreamInvariant packets s) (hq : Quiet s) :
    s.received.length = packets.length := by
  obtain ⟨c, hc⟩ := hq.receiving
  have hcons := h.conservation
  rw [hq.wire h, unsent, hq.outbox h] at hcons
  simp only [List.flatMap_nil, List.drop_nil, List.append_nil] at hcons
  have hle := h.received.length_eq
  rw [List.length_take] at hle
  cases hp : packets.drop s.received.length with
  | nil =>
    rw [List.drop_eq_nil_iff] at hp
    omega
  | cons p rest =>
    exfalso
    have hr := h.reads c hc
    rw [pendingStream_cons hp] at hr
    have hpos := hr.pending
    have hend := hr.end_le
    have hall := congrArg List.length hcons
    simp only [Link.bytesReceived, hc, Option.elim_some, List.length_nil, List.length_drop,
      pendingStream_cons hp, List.length_append] at hall
    omega

/-- Calls made and bytes moved, counted on both sides. -/
def work (s : Link) : ℕ :=
  (s.sent.length + s.sending.elim 0 (fun _ => 1)) + (s.consumed + s.wire.length) +
    (s.received.length + s.receiving.elim 0 (fun _ => 1)) + s.consumed

private theorem work_afterSend {s s' : Link} {st : Status Send} {o : Unit}
    (h : s.afterSend st = .ok (s', o)) :
    s'.sent.length + s'.sending.elim 0 (fun _ => 1) = s.sent.length + 1 ∧
      s'.consumed = s.consumed ∧ s'.wire = s.wire ∧ s'.received = s.received ∧
      s'.receiving = s.receiving := by
  cases st with
  | calling c => cases h; simp
  | returned ret buff => cases h; simp
  | died msg => cases h

private theorem work_afterRecv {s s' : Link} {st : Status Recv} {o : Unit}
    (h : s.afterRecv st = .ok (s', o)) :
    s'.received.length + s'.receiving.elim 0 (fun _ => 1) = s.received.length + 1 ∧
      s'.consumed = s.consumed ∧ s'.wire = s.wire ∧ s'.sent = s.sent ∧
      s'.sending = s.sending := by
  cases st with
  | calling c => cases h; simp
  | returned ret buff => cases h; simp
  | died msg => cases h

private theorem work_step (s : Link) (i : Event) (s' : Link) (o : Unit)
    (h : step s i = .ok (s', o)) :
    work s < work s' := by
  cases i with
  | callSend buff =>
    simp only [step] at h
    split at h
    · rename_i hs
      split_ifs at h
      obtain ⟨h₁, h₂, h₃, h₄, h₅⟩ := work_afterSend h
      simp only [work, h₂, h₃, h₄, h₅, hs, Option.elim_none]
      omega
    · cases h
  | sendSome n =>
    simp only [step] at h
    split at h
    · rename_i c hs
      split_ifs at h with hn
      obtain ⟨h₁, h₂, h₃, h₄, h₅⟩ := work_afterSend h
      simp only [work, h₂, h₃, h₄, h₅, hs, Option.elim_some, List.length_append, Send.taken,
        Memory.length_read]
      simp only at h₁
      omega
    · cases h
  | callRecv buff =>
    simp only [step] at h
    split at h
    · rename_i hr
      obtain ⟨h₁, h₂, h₃, h₄, h₅⟩ := work_afterRecv h
      simp only [work, h₂, h₃, h₄, h₅, hr, Option.elim_none]
      omega
    · cases h
  | recvSome n =>
    simp only [step] at h
    split at h
    · rename_i c hr
      split_ifs at h with hn
      obtain ⟨h₁, h₂, h₃, h₄, h₅⟩ := work_afterRecv h
      simp only [work, h₂, h₃, h₄, h₅, hr, Option.elim_some, List.length_drop]
      simp only at h₁
      omega
    · cases h

/-- The bytes of all packets. -/
def total (packets : List Packet) : ℕ := (packets.flatMap Packet.bytes).length

theorem StreamInvariant.work_le (h : StreamInvariant packets s) :
    work s ≤ 2 * packets.length + 1 + 2 * total packets := by
  have hsum : (pendingStream packets s).length +
      ((packets.take s.received.length).flatMap Packet.bytes).length = total packets := by
    rw [total, ← List.take_append_drop s.received.length packets, List.flatMap_append,
      List.length_append, List.take_append_drop, Nat.add_comm]
    rfl
  have hcons := congrArg List.length h.conservation
  have hcount := h.consumed
  have hrecv := h.received.length_eq
  have hpos : s.bytesReceived ≤ (pendingStream packets s).length := by
    rw [Link.bytesReceived]
    cases hr : s.receiving with
    | none => exact Nat.zero_le _
    | some c => exact (h.reads c hr).position
  have hsending : s.sent.length + s.sending.elim 0 (fun _ => 1) ≤ packets.length := by
    cases hs : s.sending with
    | none =>
      have hlen := congrArg List.length h.sent
      simp only [List.length_map, List.length_take] at hlen
      simp only [Option.elim_none]
      omega
    | some c =>
      obtain ⟨p, rest, ho, -⟩ := h.writes c hs
      have hlen := congrArg List.length h.outbox
      simp only [ho, List.length_cons, List.length_drop] at hlen
      simp only [Option.elim_some]
      omega
  have hreceiving : s.receiving.elim 0 (fun _ => 1) ≤ 1 := by
    cases s.receiving <;> simp
  simp only [List.length_append, List.length_drop] at hcons
  rw [List.length_take] at hrecv
  simp only [work]
  omega

/-- However the calls are split and interleaved, every received buffer holds exactly the
next packet, no byte of a later packet is consumed, no call fails, and after a bounded
number of steps everything has been received. -/
theorem framedStream_lossless (packets : List Packet) (hb : ∀ p ∈ packets, p.Buffered)
    {events : List Event} {os : List Unit} (h : run step (initial packets) events = .ok (s, os)) :
    Lossless packets s ∧ (∀ i msg, step s i ≠ .error (.died msg)) ∧
      (Quiet s → s.received.length = packets.length) ∧
      events.length ≤ 2 * packets.length + 1 + 2 * total packets := by
  have hinv : StreamInvariant packets s := streamInvariant_reachable ⟨events, os, h⟩
  refine ⟨hinv.lossless hb, ?_, hinv.received_all, ?_⟩
  · intro i msg he
    rcases preserves_step hinv i with hd | ⟨t, ht, -⟩
    · rw [he] at hd
      cases hd
    · rw [he] at ht
      cases ht
  · have hlen := length_le_of_increasing (f := work) work_step h
    have hle := hinv.work_le
    omega

def twoPackets : List Packet := [⟨subscribeAction, [97, 0], by decide⟩, shutdownPacket]

/-- The first packet arrives in three parts, the second is begun before the first is read. -/
def splitEvents : List Event :=
  [.callSend (Memory.ofBytes [3, 2, 0, 0, 0, 97, 0, 9]), .callRecv (fun _ => 1), .sendSome 3,
   .recvSome 2, .sendSome 4, .recvSome 3, .callSend (Memory.ofBytes [2]), .sendSome 5,
   .recvSome 1, .recvSome 1]

theorem framedStream_lossless_split :
    ∃ s os, run step (initial twoPackets) splitEvents = .ok (s, os) ∧
      s.received.map Prod.fst = [7] ∧ Lossless twoPackets s := by
  have hrun : completesIn step (fun s _ => s.received.map Prod.fst = [7]) (initial twoPackets)
      splitEvents = true := by decide +kernel
  obtain ⟨s, os, h, hr⟩ := exists_run_of_completesIn hrun
  exact ⟨s, os, h, by simpa using hr, (framedStream_lossless twoPackets (by decide) h).1⟩

end MessageBroker.FramedStream
