import MessageBroker.Notification

/-!
# The bytes of a notification

What `send_tcp_packet` is given for a datagram, field by field. All of it comes from the
datagram and its sender, up to the end of the field for the address.
-/
namespace MessageBroker.NotificationLayout
open ByteStrings WireFormat ServerStops Notification

/-- The value as it is sent: a string is cut at its end and has a terminator. -/
def sentValue (buff : Memory) : Bytes :=
  if buff 50 = typeString then untilNul (buff.read 51 1500) ++ [0]
  else buff.read 51 ((copyLen (buff 50)).getD 0)

/-- The printed address with its terminator; behind it the block is as `malloc` returned it. -/
def sentIp (heap : Memory) (src : SockAddrIn) : Bytes :=
  dotted src.bytes ++ [0] ++ heap.read (ipOffset + ((dotted src.bytes).length + 1))
    (maxIp - ((dotted src.bytes).length + 1))

def framePayload (buff heap : Memory) (src : SockAddrIn) : Bytes :=
  buff.read 0 50 ++ [0] ++ buff.read 50 1 ++ le32 src.sinPort ++ sentIp heap src ++ sentValue buff

theorem length_sentIp (heap : Memory) (src : SockAddrIn) : (sentIp heap src).length = maxIp := by
  have hip := length_dotted_le src
  simp only [sentIp, maxIp, List.length_append, List.length_singleton, Memory.length_read]
  omega

theorem length_framePayload (buff heap : Memory) (src : SockAddrIn) :
    (framePayload buff heap src).length = 72 + (sentValue buff).length := by
  simp only [framePayload, List.length_append, Memory.length_read, List.length_singleton,
    length_le32, length_sentIp, maxIp]

theorem copyLen_cases {type : UInt8} {len : ℕ} (h : copyLen type = some len) :
    (type = typeString ∧ len = 1501) ∨ (type ≠ typeString ∧ len ≤ 6) := by
  simp only [copyLen] at h
  split_ifs at h with hint hshort hfloat hstring
  · exact .inr ⟨by rw [hint]; decide, by cases h; decide⟩
  · exact .inr ⟨by rw [hshort]; decide, by cases h; decide⟩
  · exact .inr ⟨by rw [hfloat]; decide, by cases h; decide⟩
  · exact .inl ⟨hstring, (Option.some.inj h).symm⟩

theorem length_sentValue_le {buff : Memory} (h : (copyLen (buff 50)).isSome) :
    (sentValue buff).length ≤ 1501 := by
  obtain ⟨len, hlen⟩ := Option.isSome_iff_exists.mp h
  rw [sentValue, hlen]
  split
  · have hle : (untilNul (buff.read 51 1500)).length ≤ (buff.read 51 1500).length :=
      (List.takeWhile_prefix _).length_le
    rw [Memory.length_read] at hle
    rw [List.length_append, List.length_singleton]
    exact Nat.add_le_add_right hle 1
  · rcases copyLen_cases hlen with ⟨hstring, -⟩ | ⟨-, hle⟩
    · contradiction
    · rw [Memory.length_read, Option.getD_some]
      omega

private theorem read_type_copyTopicAndType (buff heap : Memory) :
    (copyTopicAndType buff heap).read typeOffset 1 = buff.read 50 1 := by
  have hself := Memory.read_store_self
    ((heap.store topicOffset (buff.read 0 50)).store (topicOffset + 50) [0]) typeOffset
    (buff.read 50 1)
  rw [Memory.length_read] at hself
  exact hself

private theorem read_heap_copyTopicAndType (buff heap : Memory) {a n : ℕ} (h : portOffset ≤ a) :
    (copyTopicAndType buff heap).read a n = heap.read a n := by
  simp only [portOffset] at h
  rw [copyTopicAndType, Memory.read_store_of_ge _ _ _ _ _ (by simp [typeOffset]; omega),
    Memory.read_store_of_ge _ _ _ _ _ (by simp [topicOffset]; omega),
    Memory.read_store_of_ge _ _ _ _ _ (by simp [topicOffset]; omega)]

/-- A string with the terminator that is put behind the longest one. -/
theorem read_terminated (buff m : Memory) :
    ((m.store payloadOffset (buff.read 51 1501)).store (payloadOffset + 1500) [0]).read
      payloadOffset 1501 = buff.read 51 1500 ++ [0] := by
  have hself := Memory.read_store_self m payloadOffset (buff.read 51 1501)
  have hend := Memory.read_store_self (m.store payloadOffset (buff.read 51 1501))
    (payloadOffset + 1500) [0]
  rw [Memory.length_read] at hself
  rw [List.length_singleton] at hend
  rw [show 1501 = 1500 + 1 from rfl] at hself hend ⊢
  rw [Memory.read_add, Memory.read_store_of_le _ _ _ _ _ le_rfl, hend,
    Memory.read_eq_take _ _ (Nat.le_add_right 1500 1), hself,
    ← Memory.read_eq_take _ _ (Nat.le_add_right 1500 1)]

/-- What is sent of the value, and how long it is. -/
theorem read_value_copyPayload (buff m : Memory) {len : ℕ} (h : copyLen (buff 50) = some len) :
    (copyPayload buff m (buff 50) len).2 = (sentValue buff).length ∧
      (copyPayload buff m (buff 50) len).1.read payloadOffset (sentValue buff).length =
        sentValue buff := by
  have hle : (sentValue buff).length ≤ 1501 := length_sentValue_le (by rw [h]; rfl)
  rcases copyLen_cases h with ⟨hstring, rfl⟩ | ⟨hother, -⟩
  · have hsent : sentValue buff = untilNul (buff.read 51 1500) ++ [0] := if_pos hstring
    have hcut : untilNul (buff.read 51 1500 ++ [0]) = untilNul (buff.read 51 1500) :=
      untilNul_append_replicate _ 1
    have hfront := take_length_untilNul_succ (s := buff.read 51 1500 ++ [0]) (by simp)
    have hlen : (sentValue buff).length = (untilNul (buff.read 51 1500)).length + 1 := by
      rw [hsent, List.length_append, List.length_singleton]
    rw [copyPayload, if_pos hstring]
    simp only [read_terminated]
    rw [Memory.read_eq_take _ _ hle, read_terminated, hcut, hlen]
    rw [hcut] at hfront
    exact ⟨rfl, hfront.trans hsent.symm⟩
  · have hself := Memory.read_store_self m payloadOffset (buff.read 51 len)
    have hsent : sentValue buff = buff.read 51 len := by
      rw [sentValue, if_neg hother, h, Option.getD_some]
    rw [copyPayload, if_neg hother, hsent]
    exact ⟨(Memory.length_read buff 51 len).symm, hself⟩

private theorem read_port_copySender (m : Memory) (src : SockAddrIn) :
    (copySender m src).read portOffset 4 = le32 src.sinPort :=
  Memory.read_store_self _ portOffset (le32 src.sinPort)

private theorem read_ip_copySender (m : Memory) (src : SockAddrIn) :
    (copySender m src).read ipOffset maxIp = sentIp m src := by
  have hlen : (dotted src.bytes ++ [0]).length = (dotted src.bytes).length + 1 := by simp
  have hlt := length_dotted_le src
  have hport : portOffset + (le32 src.sinPort).length ≤ ipOffset := by simp [portOffset, ipOffset]
  have hfit : (dotted src.bytes ++ [0]).length ≤ maxIp := by
    rw [hlen, maxIp]
    omega
  rw [copySender, Memory.read_store_of_ge _ _ _ _ _ hport,
    Memory.read_store_front _ _ _ _ hfit, hlen, sentIp]

private theorem read_copySender_of_ge (m : Memory) (src : SockAddrIn) {a n : ℕ}
    (h : payloadOffset ≤ a) :
    (copySender m src).read a n = m.read a n := by
  have hlt := length_dotted_le src
  simp only [payloadOffset] at h
  rw [copySender, Memory.read_store_of_ge _ _ _ _ _ (by simp [portOffset]; omega),
    Memory.read_store_of_ge _ _ _ _ _ (by simp [ipOffset]; omega)]

private theorem sentIp_congr {heap heap' : Memory} {src : SockAddrIn}
    (h : ∀ a n, portOffset ≤ a → a + n ≤ payloadOffset → heap.read a n = heap'.read a n) :
    sentIp heap src = sentIp heap' src := by
  have hlt := length_dotted_le src
  rw [sentIp, sentIp, h]
  · simp only [portOffset, ipOffset]
    omega
  · simp only [payloadOffset, ipOffset, maxIp]
    omega

private theorem read_len_writeHeader (m : Memory) (len : ℕ) :
    (writeHeader m len).read 1 4 = le32 len :=
  Memory.read_store_self (m.store 0 [notificationAction]) 1 (le32 len)

private theorem read_header_writeHeader (m : Memory) (len : ℕ) :
    (writeHeader m len).read 0 sizeofTcpHdr = notificationAction :: le32 len := by
  have haction := Memory.read_store_self m 0 [notificationAction]
  rw [List.length_singleton] at haction
  rw [show sizeofTcpHdr = 1 + 4 from rfl, Memory.read_add, Nat.zero_add, read_len_writeHeader,
    writeHeader, Memory.read_store_of_le _ 1 0 1 _ le_rfl, haction]
  rfl

/-- An integer in memory is the one whose bytes are read there. -/
theorem int32_of_read {m : Memory} {off n : ℕ} (hn : n < 2 ^ 31) (h : m.read off 4 = le32 n) :
    int32 (readLE32 (m off) (m (off + 1)) (m (off + 2)) (m (off + 3))) = n := by
  have hbytes : [m off, m (off + 1), m (off + 2), m (off + 3)] = le32 n := h
  simp only [le32, List.cons.injEq, and_true] at hbytes
  obtain ⟨h₁, h₂, h₃, h₄⟩ := hbytes
  rw [h₁, h₂, h₃, h₄, readLE32_le32 n (by omega), int32_of_lt hn]

/-- The packed fields of `notification`, one behind the other. -/
theorem read_fields (m : Memory) (n : ℕ) : m.read sizeofTcpHdr (72 + n) =
    m.read topicOffset maxTopic ++ m.read typeOffset 1 ++ m.read portOffset 4 ++
      m.read ipOffset maxIp ++ m.read payloadOffset n := by
  rw [show 72 + n = maxTopic + 1 + 4 + maxIp + n from rfl, Memory.read_add, Memory.read_add,
    Memory.read_add, Memory.read_add]
  rfl

/-- The block starts with a header for these fields, and with the fields. -/
theorem read_notification {buff heap m : Memory} {src : SockAddrIn}
    (h : buildNotification buff heap src = .ok m) :
    hdrLen m = (framePayload buff heap src).length ∧
      m.read 0 sizeofTcpHdr = notificationAction :: le32 (framePayload buff heap src).length ∧
      m.read sizeofTcpHdr (framePayload buff heap src).length = framePayload buff heap src := by
  cases hlen : copyLen (buff 50) with
  | none =>
    rw [buildNotification, hlen] at h
    cases h
  | some len =>
    obtain ⟨htotal, hvalue⟩ := read_value_copyPayload buff (copyTopicAndType buff heap) hlen
    have hle : (sentValue buff).length ≤ 1501 := length_sentValue_le (by rw [hlen]; rfl)
    have hframe := length_framePayload buff heap src
    rw [buildNotification_eq heap src hlen, htotal] at h
    rw [show 51 + 1 + 4 + 16 + (sentValue buff).length = (framePayload buff heap src).length
      from hframe.symm] at h
    cases h
    refine ⟨?_, read_header_writeHeader _ _, ?_⟩
    · exact int32_of_read (by omega) (read_len_writeHeader _ _)
    · have hip : sentIp (copyPayload buff (copyTopicAndType buff heap) (buff 50) len).1 src =
          sentIp heap src := by
        apply sentIp_congr
        intro a n ha hn
        rw [read_copyPayload_of_le _ _ _ _ hn, read_heap_copyTopicAndType _ _ ha]
      rw [read_writeHeader _ _ le_rfl, hframe, read_fields, framePayload,
        read_port_copySender, read_ip_copySender, hip, read_copySender_of_ge _ _ le_rfl, hvalue,
        read_copySender_of_le _ _ (by decide), read_copyPayload_of_le _ _ _ _ (by decide),
        read_copyTopicAndType, read_copySender_of_le _ _ (by decide),
        read_copyPayload_of_le _ _ _ _ (by decide), read_type_copyTopicAndType]

theorem frame_eq {buff heap m : Memory} {src : SockAddrIn}
    (h : buildNotification buff heap src = .ok m) : frame m =
      notificationAction :: le32 (framePayload buff heap src).length ++
        framePayload buff heap src := by
  obtain ⟨hlen, hheader, hpayload⟩ := read_notification h
  rw [frame, hlen, Int.toNat_natCast, Memory.read_add, hheader, Nat.zero_add, hpayload]

theorem known_of_built {buff heap m : Memory} {src : SockAddrIn}
    (h : buildNotification buff heap src = .ok m) : (copyLen (buff 50)).isSome := by
  cases hlen : copyLen (buff 50) with
  | some len => rfl
  | none =>
    rw [buildNotification, hlen] at h
    cases h

/-- What is sent of the block is a packet with the fields as its payload. -/
theorem packet_of_built {buff heap m : Memory} {src : SockAddrIn}
    (h : buildNotification buff heap src = .ok m) : ∃ p : Packet, frame m = p.bytes ∧
      p.action = notificationAction ∧ p.payload = framePayload buff heap src := by
  have hle := length_sentValue_le (known_of_built h)
  have hfits : sizeofTcpHdr + (framePayload buff heap src).length < 2 ^ 31 := by
    rw [length_framePayload, sizeofTcpHdr]
    omega
  exact ⟨⟨notificationAction, framePayload buff heap src, hfits⟩, frame_eq h, rfl, rfl⟩

end MessageBroker.NotificationLayout
