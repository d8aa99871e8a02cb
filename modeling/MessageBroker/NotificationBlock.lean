import MessageBroker.HandlerOutcomes
import MessageBroker.NotificationLayout

/-!
# The block a notification is assembled in

Which bytes of the block are written, and which reach the subscribers as `malloc` returned
them.
-/
namespace MessageBroker.NotificationBlock
open ByteStrings WireFormat ServerStops SubscriberRecords Notification NotificationLayout
open ServerHandlers HandlerOutcomes TransitionRuns

/-- What a server, whatever it did before, hands to `send_tcp_packet` for a datagram. -/
def handed (sv : Server) (src : SockAddrIn) (data : Bytes) (heap : Memory) : Except Stop Bytes := do
  let sv : Server := { sv with buff := sv.clearBuffer.buff.store 0 (data.take maxUdpPacketLen) }
  let packet ← buildNotification sv.buff heap src
  .ok (frame packet)

/-- Neither the history of the server nor the old contents of the block show. -/
def FromDatagram (src : SockAddrIn) (data : Bytes) : Prop :=
  ∀ sv sv' heap heap' bytes bytes', handed sv src data heap = .ok bytes →
    handed sv' src data heap' = .ok bytes' → bytes = bytes'

private theorem handed_of_built (sv : Server) {src : SockAddrIn} {data : Bytes} {heap m : Memory}
    (h : buildNotification (received data) heap src = .ok m) :
    handed sv src data heap = .ok (frame m) := by
  have hbuff : sv.clearBuffer.buff.store 0 (data.take maxUdpPacketLen) = received data := rfl
  simp only [handed, hbuff, h, ok_bind]

/-- What the branch for a datagram sends is what is handed over. -/
theorem sent_handed {sv sv' : Server} {src : SockAddrIn} {data : Bytes} {heap : Memory}
    {effects : List Effect} (h : sv.udpBranch src data heap = .ok (sv', effects)) :
    ∃ bytes, handed sv src data heap = .ok bytes ∧ ∀ e ∈ sends effects, e.2 = bytes := by
  rcases udpBranch_cases sv src data heap with ⟨e, he, -⟩ | ⟨t, packet, ht, -, -, hbuilt⟩
  · rw [h] at he
    cases he
  · rw [h] at ht
    cases ht
    refine ⟨frame packet, handed_of_built sv hbuilt, ?_⟩
    intro e he
    obtain ⟨x, hx, hsend⟩ := List.mem_filterMap.mp he
    obtain ⟨sub, -, rfl⟩ := List.mem_map.mp hx
    cases hsend
    rfl

private theorem handed_eq (sv : Server) (src : SockAddrIn) {data : Bytes} (heap : Memory)
    (h : (copyLen (datagramType data)).isSome) : handed sv src data heap =
      .ok (notificationAction :: le32 (framePayload (received data) heap src).length ++
        framePayload (received data) heap src) := by
  have hknown : (copyLen (received data 50)).isSome := (received_front data).2 ▸ h
  obtain ⟨m, hm⟩ := buildNotification_ok heap src hknown
  rw [handed_of_built sv hm, frame_eq hm]

/-- The bytes of the frame up to the terminator of the address. -/
def frameFront (src : SockAddrIn) (data : Bytes) : Bytes :=
  notificationAction :: le32 (72 + (sentValue (received data)).length) ++
    ((received data).read 0 50 ++ [0] ++ (received data).read 50 1 ++ le32 src.sinPort ++
      (dotted src.bytes ++ [0]))

private theorem length_frameFront (src : SockAddrIn) (data : Bytes) :
    (frameFront src data).length = ipOffset + ((dotted src.bytes).length + 1) := by
  simp only [frameFront, List.length_append, List.length_cons, Memory.length_read, length_le32,
    List.length_nil, ipOffset]
  omega

/-- Between the address and the value the frame shows the old contents of the block. -/
theorem handed_split (sv : Server) (src : SockAddrIn) {data : Bytes} (heap : Memory)
    (h : (copyLen (datagramType data)).isSome) : handed sv src data heap =
      .ok (frameFront src data ++
        heap.read (ipOffset + ((dotted src.bytes).length + 1))
          (maxIp - ((dotted src.bytes).length + 1)) ++ sentValue (received data)) := by
  rw [handed_eq sv src heap h, length_framePayload, framePayload, sentIp, frameFront]
  simp only [List.append_assoc, List.cons_append]

private theorem not_fromDatagram (src : SockAddrIn) {data : Bytes}
    (h : (copyLen (datagramType data)).isSome) : ¬ FromDatagram src data := by
  intro hall
  have hle := length_dotted_le src
  let sv : Server := ⟨fun _ => 0, [], ⟨[], 0, 0⟩⟩
  have hsame := hall sv sv (fun _ => 0) (fun _ => 1) _ _ (handed_split sv src _ h)
    (handed_split sv src _ h)
  have hregion := (List.append_inj (List.append_cancel_right hsame) rfl).2
  have hhead := congrArg List.head? hregion
  obtain ⟨n, hn⟩ : ∃ n, maxIp - ((dotted src.bytes).length + 1) = n + 1 :=
    Nat.exists_eq_succ_of_ne_zero (by rw [maxIp]; omega)
  rw [hn] at hhead
  simp [Memory.read, List.range_succ_eq_map] at hhead

/-- Every frame shows bytes of the heap: those behind the terminator of the address. All
other bytes are determined by the datagram and its sender. -/
theorem frame_shows_heap (src : SockAddrIn) {data : Bytes}
    (h : (copyLen (datagramType data)).isSome) : ¬ FromDatagram src data ∧
    ∀ sv sv' heap heap' bytes bytes', handed sv src data heap = .ok bytes →
      handed sv' src data heap' = .ok bytes' → bytes.length = bytes'.length ∧
        ∀ i, i ≤ ipOffset + (dotted src.bytes).length ∨ payloadOffset ≤ i →
          bytes[i]? = bytes'[i]? := by
  refine ⟨not_fromDatagram src h, ?_⟩
  have hle := length_dotted_le src
  have hfront := length_frameFront src data
  intro sv sv' heap heap' bytes bytes' hb hb'
  rw [handed_split sv src heap h] at hb
  rw [handed_split sv' src heap' h] at hb'
  cases hb
  cases hb'
  refine ⟨by simp, ?_⟩
  intro i hi
  rcases hi with hi | hi
  · have hlt : i < (frameFront src data).length := by omega
    rw [List.append_assoc, List.append_assoc, List.getElem?_append_left hlt,
      List.getElem?_append_left hlt]
  · have hbehind (m : Memory) : (frameFront src data ++ m.read
        (ipOffset + ((dotted src.bytes).length + 1))
        (maxIp - ((dotted src.bytes).length + 1))).length = payloadOffset := by
      simp only [List.length_append, hfront, Memory.length_read, ipOffset, maxIp, payloadOffset]
      omega
    rw [List.getElem?_append_right ((hbehind heap).trans_le hi),
      List.getElem?_append_right ((hbehind heap').trans_le hi), hbehind, hbehind]

def sampleSender : SockAddrIn := ⟨4001, by decide, (127, 0, 0, 1)⟩

/-- A datagram with a topic of one letter. -/
def letterDatagram (c : Char) (type : UInt8) (value : Bytes) : Bytes :=
  byte c :: List.replicate 49 0 ++ type :: value

theorem frame_shows_heap_int : ¬ FromDatagram sampleSender (letterDatagram 'p' typeInt []) :=
  (frame_shows_heap sampleSender (by decide +kernel)).1

theorem fromDatagram_fails :
    ¬ FromDatagram sampleSender (letterDatagram 'p' typeString (ascii "on")) :=
  not_fromDatagram sampleSender (by decide +kernel)

/-- `sizeof(tcp_hdr) + sizeof(notification)`. -/
def blockSize : ℕ := sizeofTcpHdr + (maxTopic + 1 + 4 + maxIp + 1500)

/-- A field of the block: where it starts and how long it is. -/
structure Field where
  offset : ℕ
  size : ℕ
  inBlock : offset + size ≤ blockSize

def actionField : Field := ⟨0, 1, by decide⟩
def lenField : Field := ⟨1, 4, by decide⟩
def topicField : Field := ⟨topicOffset, maxTopic, by decide⟩
def typeField : Field := ⟨typeOffset, 1, by decide⟩
def portField : Field := ⟨portOffset, 4, by decide⟩
def ipField : Field := ⟨ipOffset, maxIp, by decide⟩
def payloadField : Field := ⟨payloadOffset, 1500, by decide⟩

/-- A copy to a field, from its byte `start` on. -/
structure Write where
  field : Field
  start : ℕ
  bytes : Bytes

def Write.performed (m : Memory) (w : Write) : Memory := m.store (w.field.offset + w.start) w.bytes

/-- The bytes go into the field and into the block. -/
def Write.Inside (w : Write) : Prop :=
  w.start + w.bytes.length ≤ w.field.size ∧
    w.field.offset + w.start + w.bytes.length ≤ blockSize

theorem Write.inside_of_le {w : Write} (h : w.start + w.bytes.length ≤ w.field.size) :
    w.Inside := by
  refine ⟨h, ?_⟩
  have hfield := w.field.inBlock
  omega

/-- The writes for a datagram whose value is copied with this length, in order. -/
def writes (buff heap : Memory) (src : SockAddrIn) (len : ℕ) : List Write :=
  let sent := (copyPayload buff (copyTopicAndType buff heap) (buff 50) len).2
  [⟨topicField, 0, buff.read 0 50⟩, ⟨topicField, 50, [0]⟩, ⟨typeField, 0, buff.read 50 1⟩,
    ⟨payloadField, 0, buff.read 51 len⟩] ++
  (if buff 50 = typeString then [⟨payloadField, 1500, [0]⟩] else []) ++
  [⟨ipField, 0, dotted src.bytes ++ [0]⟩, ⟨portField, 0, le32 src.sinPort⟩,
    ⟨actionField, 0, [notificationAction]⟩, ⟨lenField, 0, le32 (51 + 1 + 4 + 16 + sent)⟩]

/-- The notification is what these writes make of the block. -/
theorem buildNotification_writes {buff : Memory} (heap : Memory) (src : SockAddrIn) {len : ℕ}
    (h : copyLen (buff 50) = some len) : buildNotification buff heap src =
      .ok ((writes buff heap src len).foldl Write.performed heap) := by
  rw [buildNotification_eq heap src h, writes]
  by_cases hstring : buff 50 = typeString
  · simp only [copyPayload, if_pos hstring]
    rfl
  · simp only [copyPayload, if_neg hstring]
    rfl

/-- For one server and one content of the block: what is copied has an assigned length and
stays in its field, what is sent stays in the block, and nothing is sent for other types. -/
structure SafelyBuilt (sv : Server) (src : SockAddrIn) (data : Bytes) (heap : Memory) : Prop where
  assigned : buildNotification (received data) heap src ≠ .error .unassignedLength
  inside : ∀ len, copyLen (datagramType data) = some len →
    ∀ w ∈ writes (received data) heap src len, w.Inside
  fits : ∀ m, buildNotification (received data) heap src = .ok m →
    sizeofTcpHdr + hdrLen m ≤ blockSize
  dropped : copyLen (datagramType data) = none →
    ∃ sv', sv.udpBranch src data heap = .ok (sv', [])

private theorem not_safelyBuilt_of_string {sv : Server} {src : SockAddrIn} {data : Bytes}
    {heap : Memory} (h : datagramType data = typeString) : ¬ SafelyBuilt sv src data heap := by
  intro hsafe
  have hlen : copyLen (datagramType data) = some 1501 := by rw [h]; rfl
  have hin := hsafe.inside 1501 hlen ⟨payloadField, 0, (received data).read 51 1501⟩
    (by simp [writes])
  have hfield := hin.1
  simp [payloadField] at hfield

private theorem not_safelyBuilt_of_unknown {sv : Server} {src : SockAddrIn} {data : Bytes}
    {heap : Memory} (h : copyLen (datagramType data) = none) : ¬ SafelyBuilt sv src data heap := by
  intro hsafe
  apply hsafe.assigned
  rw [buildNotification, (received_front data).2, h]

private theorem safelyBuilt_of_short {sv : Server} {src : SockAddrIn} {data : Bytes} {heap : Memory}
    {len : ℕ} (h : copyLen (datagramType data) = some len) (hother : datagramType data ≠ typeString) :
    SafelyBuilt sv src data heap := by
  have htype := (received_front data).2
  have hlen : copyLen (received data 50) = some len := htype ▸ h
  have hshort : len ≤ 6 := by
    rcases copyLen_cases h with ⟨hs, -⟩ | ⟨-, hle⟩
    · exact absurd hs hother
    · exact hle
  refine ⟨?_, ?_, ?_, ?_⟩
  · obtain ⟨m, hm⟩ := buildNotification_ok heap src (by rw [hlen]; rfl)
    rw [hm]
    intro he
    cases he
  · intro n hn w hw
    rw [h] at hn
    cases hn
    have hdot : (dotted src.bytes ++ [0]).length ≤ maxIp := by
      have hle := length_dotted_le src
      rw [List.length_append, List.length_singleton, maxIp]
      omega
    rw [writes, htype, if_neg hother] at hw
    simp only [List.append_nil, List.cons_append, List.nil_append, List.mem_cons,
      List.not_mem_nil, or_false] at hw
    rcases hw with rfl | rfl | rfl | rfl | rfl | rfl | rfl | rfl
    · exact Write.inside_of_le (by simp [topicField, maxTopic])
    · exact Write.inside_of_le (by simp [topicField, maxTopic])
    · exact Write.inside_of_le (by simp [typeField])
    · apply Write.inside_of_le
      rw [Memory.length_read, Nat.zero_add]
      exact hshort.trans (show 6 ≤ payloadField.size by decide)
    · exact Write.inside_of_le ((Nat.zero_add _).trans_le hdot)
    · exact Write.inside_of_le (by simp [portField])
    · exact Write.inside_of_le (by simp [actionField])
    · exact Write.inside_of_le (by simp [lenField])
  · intro m hm
    have hsent : (sentValue (received data)).length = len := by
      rw [sentValue, htype, if_neg hother, h, Option.getD_some, Memory.length_read]
    have hsmall : sizeofTcpHdr + (72 + len) ≤ sizeofTcpHdr + (72 + 6) := by omega
    rw [(read_notification hm).1, length_framePayload, hsent]
    exact_mod_cast hsmall.trans (by decide)
  · intro hnone
    rw [h] at hnone
    cases hnone

/-- A notification is built safely exactly for the types of fixed length. -/
theorem safelyBuilt_iff (sv : Server) (src : SockAddrIn) (data : Bytes) (heap : Memory) :
    SafelyBuilt sv src data heap ↔ datagramType data = typeInt ∨
      datagramType data = typeShortReal ∨ datagramType data = typeFloat := by
  constructor
  · intro hsafe
    by_contra hno
    simp only [not_or] at hno
    obtain ⟨hint, hshort, hfloat⟩ := hno
    by_cases hstring : datagramType data = typeString
    · exact not_safelyBuilt_of_string hstring hsafe
    · apply not_safelyBuilt_of_unknown _ hsafe
      rw [copyLen, if_neg hint, if_neg hshort, if_neg hfloat, if_neg hstring]
  · intro hfixed
    rcases hfixed with h | h | h
    · have hlen : copyLen (datagramType data) = some 5 := by rw [h]; rfl
      exact safelyBuilt_of_short hlen (by rw [h]; decide)
    · have hlen : copyLen (datagramType data) = some 2 := by rw [h]; rfl
      exact safelyBuilt_of_short hlen (by rw [h]; decide)
    · have hlen : copyLen (datagramType data) = some 6 := by rw [h]; rfl
      exact safelyBuilt_of_short hlen (by rw [h]; decide)

/-- Every string is copied one byte too far, and other types are copied with any length. -/
theorem safelyBuilt_fails : ¬ SafelyBuilt ⟨fun _ => 0, [], ⟨[], 0, 0⟩⟩ sampleSender
      (letterDatagram 'p' typeString (ascii "on")) (fun _ => 0) ∧
    ¬ SafelyBuilt ⟨fun _ => 0, [], ⟨[], 0, 0⟩⟩ sampleSender (letterDatagram 'p' 9 [])
      (fun _ => 0) :=
  ⟨not_safelyBuilt_of_string (by decide +kernel), not_safelyBuilt_of_unknown (by decide +kernel)⟩

end MessageBroker.NotificationBlock
