import MessageBroker.WireFormat
import MessageBroker.ServerStops

/-!
# From a datagram to a notification

`parse_udp_packet` fills a block from `malloc`, whose old contents are a parameter, with
the header, the topic, the type, the sender and the value of a datagram in `buff`.
-/
namespace MessageBroker.Notification
open ByteStrings WireFormat ServerStops

def topicOffset : ℕ := 5
def typeOffset : ℕ := 56
def portOffset : ℕ := 57
def ipOffset : ℕ := 61
def payloadOffset : ℕ := 77

/-- The value bytes to copy; no case of the `switch` assigns `len` for another type. -/
def copyLen (type : UInt8) : Option ℕ :=
  if type = typeInt then some 5
  else if type = typeShortReal then some 2
  else if type = typeFloat then some 6
  else if type = typeString then some 1501
  else none

/-- The topic is cut to `50` bytes and terminated, the type is the byte behind it. -/
def copyTopicAndType (buff heap : Memory) : Memory :=
  ((heap.store topicOffset (buff.read 0 50)).store (topicOffset + 50) [0]).store typeOffset
    (buff.read 50 1)

/-- The value, and the length of what is sent of it. The terminator of a string goes one byte
behind the fields of the block; that byte is taken to be writable. -/
def copyPayload (buff m : Memory) (type : UInt8) (len : ℕ) : Memory × ℕ :=
  let m := m.store payloadOffset (buff.read 51 len)
  if type = typeString then
    let m := m.store (payloadOffset + 1500) [0]
    let actualLen := (untilNul (m.read payloadOffset 1501)).length
    (m, actualLen + 1)
  else (m, len)

/-- `inet_ntop` is passed the `sockaddr`, not the address in it. -/
def copySender (m : Memory) (src : SockAddrIn) : Memory :=
  (m.store ipOffset (dotted src.bytes ++ [0])).store portOffset (le32 src.sinPort)

def writeHeader (m : Memory) (len : ℕ) : Memory :=
  (m.store 0 [notificationAction]).store 1 (le32 len)

def buildNotification (buff heap : Memory) (src : SockAddrIn) : Except Stop Memory :=
  let type := buff 50
  match copyLen type with
  | none => .error .unassignedLength
  | some len =>
    let (m, len) := copyPayload buff (copyTopicAndType buff heap) type len
    .ok (writeHeader (copySender m src) (51 + 1 + 4 + 16 + len))

/-- What `send_tcp_packet` sends of a block. -/
def frame (m : Memory) : Bytes := m.read 0 (sizeofTcpHdr + (hdrLen m).toNat)

theorem read_copyTopicAndType (buff heap : Memory) :
    (copyTopicAndType buff heap).read topicOffset maxTopic = buff.read 0 50 ++ [0] := by
  have hone := Memory.read_store_self ((heap.store topicOffset (buff.read 0 50))) 55 [0]
  have htopic := Memory.read_store_self heap topicOffset (buff.read 0 50)
  rw [Memory.length_read] at htopic
  rw [copyTopicAndType, Memory.read_store_of_le _ _ _ _ _ (by decide)]
  rw [show maxTopic = 50 + 1 from rfl, Memory.read_add, Memory.read_store_of_le _ _ _ _ _ le_rfl,
    htopic]
  exact congrArg _ hone

theorem read_copyPayload_of_le (buff m : Memory) (type : UInt8) (len : ℕ) {a n : ℕ}
    (h : a + n ≤ payloadOffset) : (copyPayload buff m type len).1.read a n = m.read a n := by
  have hend : a + n ≤ payloadOffset + 1500 := h.trans (Nat.le_add_right _ _)
  rw [copyPayload]
  split
  · rw [Memory.read_store_of_le _ _ _ _ _ hend, Memory.read_store_of_le _ _ _ _ _ h]
  · rw [Memory.read_store_of_le _ _ _ _ _ h]

theorem read_copySender_of_le (m : Memory) (src : SockAddrIn) {a n : ℕ} (h : a + n ≤ portOffset) :
    (copySender m src).read a n = m.read a n := by
  have hip : a + n ≤ ipOffset := h.trans (by decide)
  rw [copySender, Memory.read_store_of_le _ _ _ _ _ h, Memory.read_store_of_le _ _ _ _ _ hip]

theorem read_writeHeader (m : Memory) (len : ℕ) {a n : ℕ} (h : sizeofTcpHdr ≤ a) :
    (writeHeader m len).read a n = m.read a n := by
  simp only [sizeofTcpHdr] at h
  rw [writeHeader, Memory.read_store_of_ge _ _ _ _ _ (by simp; omega),
    Memory.read_store_of_ge _ _ _ _ _ (by simp; omega)]

theorem buildNotification_eq {buff : Memory} (heap : Memory) (src : SockAddrIn) {len : ℕ}
    (hlen : copyLen (buff 50) = some len) : buildNotification buff heap src =
      .ok (writeHeader (copySender
        (copyPayload buff (copyTopicAndType buff heap) (buff 50) len).1 src)
        (51 + 1 + 4 + 16 + (copyPayload buff (copyTopicAndType buff heap) (buff 50) len).2)) := by
  rw [buildNotification, hlen]

/-- A datagram of a known type becomes a frame. -/
theorem buildNotification_ok {buff : Memory} (heap : Memory) (src : SockAddrIn)
    (htype : (copyLen (buff 50)).isSome) : ∃ m, buildNotification buff heap src = .ok m := by
  obtain ⟨len, hlen⟩ := Option.isSome_iff_exists.mp htype
  exact ⟨_, buildNotification_eq heap src hlen⟩

/-- The frame has the datagram's topic. -/
theorem read_topic_notification {buff heap m : Memory} {src : SockAddrIn}
    (h : buildNotification buff heap src = .ok m) :
    m.read topicOffset maxTopic = buff.read 0 50 ++ [0] := by
  cases hlen : copyLen (buff 50) with
  | none =>
    rw [buildNotification, hlen] at h
    cases h
  | some len =>
    rw [buildNotification_eq heap src hlen] at h
    rw [← Except.ok.inj h, read_writeHeader _ _ (by decide), read_copySender_of_le _ _ (by decide),
      read_copyPayload_of_le _ _ _ _ (by decide), read_copyTopicAndType]

end MessageBroker.Notification
