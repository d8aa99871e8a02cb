import MessageBroker.NotificationBlock
import MessageBroker.PacketReceipt

/-!
# What a subscriber shows of a datagram

`parse_notification` reads the fields that `parse_udp_packet` has written. It gives the
datagram back, but not its sender.
-/
namespace MessageBroker.NotificationDisplay
open ByteStrings WireFormat ServerStops PacketFraming PacketReceipt
open Notification NotificationLayout NotificationBlock HandlerOutcomes TransitionRuns

/-- Bytes of an object that has `size` bytes. -/
def load (buff : Memory) (size off n : ℕ) : Except Stop Bytes :=
  if off + n ≤ size then .ok (buff.read off n) else .error .outsideBuff

/-- The argument of `%s`. -/
def loadString (buff : Memory) (size off : ℕ) : Except Stop Bytes :=
  match readCStr (buff.read off (size - off)) with
  | some s => .ok s
  | none => .error .unterminatedString

/-- The `unsigned` argument of a `%d`. -/
def loadInt (buff : Memory) (size off : ℕ) : Except Stop ℤ := do
  let _ ← load buff size off 4
  .ok (int32 (readLE32 (buff off) (buff (off + 1)) (buff (off + 2)) (buff (off + 3))))

/-- What is passed to `fprintf`; of the value the bytes it is computed from. -/
structure Notice where
  ip : Bytes
  port : ℤ
  topic : Bytes
  type : UInt8
  value : Bytes
  deriving DecidableEq

/-- The `switch` has no case for other types. -/
def loadValue (buff : Memory) (size : ℕ) (type : UInt8) : Except Stop Bytes :=
  if type = typeInt then load buff size payloadOffset 5
  else if type = typeShortReal then load buff size payloadOffset 2
  else if type = typeFloat then load buff size payloadOffset 6
  else if type = typeString then loadString buff size payloadOffset
  else .ok []

def parseNotification (buff : Memory) (size : ℕ) : Except Stop Notice := do
  let ip ← loadString buff size ipOffset
  let port ← loadInt buff size portOffset
  let topic ← loadString buff size topicOffset
  let _ ← load buff size typeOffset 1
  let value ← loadValue buff size (buff typeOffset)
  .ok ⟨ip, port, topic, buff typeOffset, value⟩

def signedDecimal (z : ℤ) : Bytes := if z < 0 then byte '-' :: decimal z.natAbs else decimal z.natAbs

/-- What the first `fprintf` writes. -/
def Notice.line (n : Notice) : Bytes :=
  n.ip ++ ascii ":" ++ signedDecimal n.port ++ ascii " - " ++ n.topic ++ ascii " - "

private theorem load_of_le {buff : Memory} {size off n : ℕ} (h : off + n ≤ size) :
    load buff size off n = .ok (buff.read off n) := if_pos h

private theorem loadString_of_read {buff : Memory} {size off n : ℕ} {bs : Bytes}
    (h : off + n ≤ size)
    (hr : buff.read off n = bs) (hz : 0 ∈ bs) : loadString buff size off = .ok (untilNul bs) := by
  have hsplit : buff.read off (size - off) = bs ++ buff.read (off + n) (size - off - n) := by
    rw [← hr, ← Memory.read_add, Nat.add_sub_cancel' (by omega)]
  rw [loadString, hsplit, readCStr_append_of_mem _ hz]

private theorem loadInt_of_read {buff : Memory} {size off n : ℕ} (h : off + 4 ≤ size)
    (hn : n < 2 ^ 31) (hr : buff.read off 4 = le32 n) : loadInt buff size off = .ok (n : ℤ) := by
  rw [loadInt, load_of_le h, int32_of_read hn hr]
  rfl

/-- Bytes of a datagram: missing ones are zero, those behind the limit are dropped. -/
def datagramBytes (data : Bytes) (off n : ℕ) : Bytes :=
  (List.range n).map (fun i => (data.take maxUdpPacketLen).getD (off + i) 0)

def datagramValue (data : Bytes) : Bytes :=
  if datagramType data = typeInt then datagramBytes data 51 5
  else if datagramType data = typeShortReal then datagramBytes data 51 2
  else if datagramType data = typeFloat then datagramBytes data 51 6
  else untilNul (datagramBytes data 51 1500)

private theorem read_received (data : Bytes) (off n : ℕ) :
    (received data).read off n = datagramBytes data off n := by
  simp [received, Memory.read, Memory.store, datagramBytes]

private theorem zero_notMem_dotted (src : SockAddrIn) : 0 ∉ dotted src.bytes := by
  intro h
  rcases mem_dotted h with ⟨hlow, -⟩ | hdot
  · exact absurd hlow (by decide)
  · exact absurd hdot (by decide)

private theorem datagramValue_of_string {data : Bytes} (h : datagramType data = typeString) :
    datagramValue data = untilNul (datagramBytes data 51 1500) := by
  rw [datagramValue, h, if_neg (by decide), if_neg (by decide), if_neg (by decide)]

/-- The other types have a value of fixed length. -/
theorem value_of_fixed {data : Bytes} {len : ℕ} (h : copyLen (datagramType data) = some len)
    (hother : datagramType data ≠ typeString) : datagramValue data = datagramBytes data 51 len ∧
      ∀ m size, loadValue m size (datagramType data) = load m size payloadOffset len := by
  simp only [copyLen] at h
  simp only [datagramValue, loadValue]
  split_ifs at h ⊢ with hint hshort hfloat
  · cases h
    exact ⟨rfl, fun _ _ => rfl⟩
  · cases h
    exact ⟨rfl, fun _ _ => rfl⟩
  · cases h
    exact ⟨rfl, fun _ _ => rfl⟩

/-- The bytes sent for the value: a string has a terminator behind it. -/
theorem sentValue_received {data : Bytes} (h : (copyLen (datagramType data)).isSome) :
    sentValue (received data) =
      datagramValue data ++ if datagramType data = typeString then [0] else [] := by
  obtain ⟨len, hlen⟩ := Option.isSome_iff_exists.mp h
  rw [sentValue, (received_front data).2]
  by_cases hstring : datagramType data = typeString
  · rw [if_pos hstring, if_pos hstring, datagramValue_of_string hstring, read_received]
  · rw [if_neg hstring, if_neg hstring, List.append_nil, hlen, Option.getD_some, read_received,
      (value_of_fixed hlen hstring).1]

/-- The fields of a frame at the front of a buffer. -/
structure HoldsFrame (buff heap : Memory) (src : SockAddrIn) (m : Memory) : Prop where
  topic : m.read topicOffset maxTopic = buff.read 0 50 ++ [0]
  type : m.read typeOffset 1 = buff.read 50 1
  port : m.read portOffset 4 = le32 src.sinPort
  ip : m.read ipOffset maxIp = sentIp heap src
  value : m.read payloadOffset (sentValue buff).length = sentValue buff

private theorem holdsFrame_of_read {buff heap m : Memory} {src : SockAddrIn}
    (h : m.read sizeofTcpHdr (72 + (sentValue buff).length) = framePayload buff heap src) :
    HoldsFrame buff heap src m := by
  rw [read_fields, framePayload] at h
  obtain ⟨h, hvalue⟩ := List.append_inj' h (by rw [Memory.length_read])
  obtain ⟨h, hip⟩ := List.append_inj' h (by rw [Memory.length_read, length_sentIp])
  obtain ⟨h, hport⟩ := List.append_inj' h (by rw [Memory.length_read, length_le32])
  obtain ⟨htopic, htype⟩ := List.append_inj' h (by rw [Memory.length_read, Memory.length_read])
  exact ⟨htopic, htype, hport, hip, hvalue⟩

/-- Of a buffer with a frame only the frame is read. -/
theorem loadValue_of_frame {data : Bytes} {heap m : Memory} {src : SockAddrIn} {size : ℕ}
    (known : (copyLen (datagramType data)).isSome) (h : HoldsFrame (received data) heap src m)
    (hsize : payloadOffset + (sentValue (received data)).length ≤ size) :
    loadValue m size (datagramType data) = .ok (datagramValue data) := by
  have hvalue := h.value
  have hsent := sentValue_received known
  obtain ⟨len, hlen⟩ := Option.isSome_iff_exists.mp known
  by_cases hstring : datagramType data = typeString
  · rw [if_pos hstring] at hsent
    rw [datagramValue_of_string hstring] at hsent ⊢
    rw [loadValue, hstring, if_neg (by decide), if_neg (by decide), if_neg (by decide), if_pos rfl,
      loadString_of_read hsize hvalue (by rw [hsent]; simp), hsent, untilNul_append_zero]
    exact zero_notMem_untilNul _
  · obtain ⟨hbytes, hload⟩ := value_of_fixed hlen hstring
    have hcount : (datagramBytes data 51 len).length = len := by simp [datagramBytes]
    rw [if_neg hstring, List.append_nil, hbytes] at hsent
    rw [hsent, hcount] at hvalue hsize
    rw [hload, load_of_le hsize, hvalue, hbytes]

private theorem parseNotification_of_frame {data : Bytes} {heap m : Memory} {src : SockAddrIn}
    {size : ℕ}
    (known : (copyLen (datagramType data)).isSome) (h : HoldsFrame (received data) heap src m)
    (hsize : payloadOffset + (sentValue (received data)).length ≤ size) :
    parseNotification m size = .ok ⟨dotted src.bytes, src.sinPort, datagramTopic data,
      datagramType data, datagramValue data⟩ := by
  have hport := src.portFits
  have htype : m typeOffset = datagramType data := by
    have hone : [m typeOffset] = [received data 50] := h.type
    rw [(List.cons.inj hone).1, (received_front data).2]
  have htopic : untilNul ((received data).read 0 50 ++ [0]) = datagramTopic data := by
    have hcut := untilNul_append_replicate ((received data).read 0 50) 1
    rw [List.replicate_one] at hcut
    rw [hcut, (received_front data).1]
  have hip : untilNul (sentIp heap src) = dotted src.bytes := by
    rw [sentIp, List.append_assoc, List.singleton_append, untilNul_append_zero]
    exact zero_notMem_dotted src
  have hfront : payloadOffset ≤ size := by omega
  simp only [payloadOffset] at hfront
  rw [parseNotification, loadString_of_read (by simp only [ipOffset, maxIp]; omega) h.ip
      (by simp [sentIp]), hip,
    loadInt_of_read (by simp only [portOffset]; omega) (by omega) h.port,
    loadString_of_read (by simp only [topicOffset, maxTopic]; omega) h.topic (by simp), htopic,
    load_of_le (by simp only [typeOffset]; omega), htype, loadValue_of_frame known h hsize]
  rfl

/-- What the subscriber makes of a received notification: it reads no more than the frame. -/
theorem parseNotification_received {data : Bytes} {heap packet : Memory} {src : SockAddrIn}
    (known : (copyLen (datagramType data)).isSome)
    (built : buildNotification (received data) heap src = .ok packet) {buff m : Memory}
    {rest rest' : Bytes} {ret : ℤ}
    (h : Receives (recvTcpPacket buff) (frame packet ++ rest) ret m rest') :
    ret = sizeofTcpHdr + hdrLen packet ∧ rest' = rest ∧ ∀ size : ℕ,
      sizeofTcpHdr + hdrLen packet ≤ size → parseNotification m size =
        .ok ⟨dotted src.bytes, src.sinPort, datagramTopic data, datagramType data,
          datagramValue data⟩ := by
  obtain ⟨p, hframe, haction, hpayload⟩ := packet_of_built built
  have hlen := (read_notification built).1
  have hfields := length_framePayload (received data) heap src
  have hfits := p.fits
  have hbytes := p.length_bytes
  rw [hframe] at h
  obtain ⟨hret, hrest, hmem⟩ := receives_packet h
  rw [← hpayload] at hlen hfields
  refine ⟨by rw [hret, hlen, hbytes]; rfl, hrest, ?_⟩
  intro size hsize
  have hread : m.read sizeofTcpHdr (72 + (sentValue (received data)).length) =
      framePayload (received data) heap src := by
    have hself := Memory.read_store_self buff 0 p.bytes
    rw [hbytes, Memory.read_add, Nat.zero_add, Packet.bytes] at hself
    rw [← hfields, ← hpayload, Memory.read_congr (fun a ha => hmem a (by omega))]
    exact (List.append_inj hself (by simp [sizeofTcpHdr])).2
  apply parseNotification_of_frame known (holdsFrame_of_read hread)
  rw [hlen, hfields] at hsize
  simp only [sizeofTcpHdr, payloadOffset] at hsize ⊢
  omega

theorem frame_fits_buffer {data : Bytes} {heap packet : Memory} {src : SockAddrIn}
    (built : buildNotification (received data) heap src = .ok packet) :
    sizeofTcpHdr + hdrLen packet ≤ maxLen := by
  have hle := length_sentValue_le (known_of_built built)
  rw [(read_notification built).1, length_framePayload]
  simp only [sizeofTcpHdr, maxLen]
  omega

/-- A datagram of a known type comes back from its notification, whatever fragments it is
received in, and a subscriber that sees nothing behind the notification shows the same. -/
theorem notification_round_trip (src : SockAddrIn) (heap : Memory) (rest : Bytes) {data : Bytes}
    (known : (copyLen (datagramType data)).isSome) :
    ∃ packet, buildNotification (received data) heap src = .ok packet ∧
      hdrLen packet = 72 + (datagramValue data).length +
        (if datagramType data = typeString then 1 else 0) ∧
      (∃ ret m, Receives (recvTcpPacket (fun _ => 0)) (frame packet ++ rest) ret m rest) ∧
      ∀ ret m rest', Receives (recvTcpPacket (fun _ => 0)) (frame packet ++ rest) ret m rest' →
        ret = sizeofTcpHdr + hdrLen packet ∧ rest' = rest ∧ ∃ notice,
          parseNotification m maxLen = .ok notice ∧ parseNotification m ret.toNat = .ok notice ∧
          notice.type = datagramType data ∧ notice.topic = datagramTopic data ∧
          notice.value = datagramValue data := by
  have hfront := (received_front data).2
  obtain ⟨packet, hbuilt⟩ := buildNotification_ok heap src (hfront ▸ known)
  have hlen := (read_notification hbuilt).1
  rw [length_framePayload] at hlen
  refine ⟨packet, hbuilt, ?_, ?_, ?_⟩
  · rw [hlen, sentValue_received known]
    split
    · simp only [List.length_append, List.length_singleton]
      omega
    · simp
  · obtain ⟨p, hframe, -, -⟩ := packet_of_built hbuilt
    rw [hframe]
    exact exists_receives p rest _
  · intro ret m rest' h
    obtain ⟨hret, hrest, hparse⟩ := parseNotification_received known hbuilt h
    refine ⟨hret, hrest, _, hparse maxLen (frame_fits_buffer hbuilt), hparse ret.toNat ?_, rfl,
      rfl, rfl⟩
    omega

theorem notification_round_trip_string : ∃ packet ret m notice,
    buildNotification (received (letterDatagram 'p' typeString (ascii "on"))) (fun _ => 7)
      sampleSender = .ok packet ∧ hdrLen packet = 75 ∧
    Receives (recvTcpPacket (fun _ => 0)) (frame packet ++ [1, 2]) ret m [1, 2] ∧
    parseNotification m ret.toNat = .ok notice ∧ notice.topic = ascii "p" ∧
    notice.value = ascii "on" := by
  have known : (copyLen (datagramType (letterDatagram 'p' typeString (ascii "on")))).isSome := by
    decide +kernel
  obtain ⟨packet, hbuilt, hlen, ⟨ret, m, hr⟩, hall⟩ :=
    notification_round_trip sampleSender (fun _ => 7) [1, 2] known
  obtain ⟨-, -, notice, -, hparse, -, htopic, hvalue⟩ := hall ret m _ hr
  refine ⟨packet, ret, m, notice, hbuilt, hlen.trans (by decide +kernel), hr, hparse, ?_, ?_⟩
  · exact htopic.trans (by decide +kernel)
  · exact hvalue.trans (by decide +kernel)

/-- The address of a sender as it is written. -/
def dottedAddr (src : SockAddrIn) : Bytes :=
  dotted [src.addr.1, src.addr.2.1, src.addr.2.2.1, src.addr.2.2.2]

/-- The line of every subscriber that receives the datagram starts with its sender. -/
def ShowsSender (src : SockAddrIn) (data : Bytes) (heap : Memory) : Prop :=
  ∀ packet rest ret m rest', buildNotification (received data) heap src = .ok packet →
    Receives (recvTcpPacket (fun _ => 0)) (frame packet ++ rest) ret m rest' →
    ∃ notice, parseNotification m maxLen = .ok notice ∧
      dottedAddr src ++ ascii ":" ++ decimal src.sinPort <+: notice.line

private theorem append_separator_inj {x x' y y' : Bytes} {c : UInt8} (hx : c ∉ x) (hx' : c ∉ x')
    (h : x ++ c :: y = x' ++ c :: y') : x = x' ∧ y = y' := by
  have hcut {z w : Bytes} (hz : c ∉ z) : (z ++ c :: w).takeWhile (· ≠ c) = z := by
    have hall : ∀ b ∈ z, decide (b ≠ c) = true := by
      intro b hb
      simpa using fun he : b = c => hz (he ▸ hb)
    rw [List.takeWhile_append_of_pos hall, List.takeWhile_cons_of_neg (by simp), List.append_nil]
  have hsame := congrArg (List.takeWhile (· ≠ c)) h
  rw [hcut hx, hcut hx'] at hsame
  subst hsame
  exact ⟨rfl, (List.cons.inj (List.append_cancel_left h)).2⟩

private theorem dot_notMem_decimal (b : UInt8) : byte '.' ∉ decimal b.toNat := by
  intro h
  exact absurd (digits_of_mem_decimal h).1 (by decide)

/-- Four bytes are determined by what is printed of them. -/
theorem dotted_inj {a b c d a' b' c' d' : UInt8} {rest rest' : Bytes}
    (h : dotted (a :: b :: c :: d :: rest) = dotted (a' :: b' :: c' :: d' :: rest')) :
    a = a' ∧ b = b' ∧ c = c' ∧ d = d' := by
  rw [dotted_eq, dotted_eq] at h
  obtain ⟨ha, h⟩ := append_separator_inj (dot_notMem_decimal a) (dot_notMem_decimal a') h
  obtain ⟨hb, h⟩ := append_separator_inj (dot_notMem_decimal b) (dot_notMem_decimal b') h
  obtain ⟨hc, hd⟩ := append_separator_inj (dot_notMem_decimal c) (dot_notMem_decimal c') h
  exact ⟨decimal_inj ha, decimal_inj hb, decimal_inj hc, decimal_inj hd⟩

private theorem colon_notMem_dotted {a b c d : UInt8} {rest : Bytes} :
    byte ':' ∉ dotted (a :: b :: c :: d :: rest) := by
  intro h
  rcases mem_dotted h with ⟨-, hhigh⟩ | hdot
  · exact absurd hhigh (by decide)
  · exact absurd hdot (by decide)

/-- A line starts with an address and the port exactly if this is the address printed. -/
theorem prefix_line_iff {src : SockAddrIn} {topic value : Bytes} {type : UInt8} :
    dottedAddr src ++ ascii ":" ++ decimal src.sinPort <+:
        (⟨dotted src.bytes, src.sinPort, topic, type, value⟩ : Notice).line ↔
      src.addr = (2, 0, UInt8.ofNat (src.sinPort / 256), UInt8.ofNat src.sinPort) := by
  have hport : signedDecimal src.sinPort = decimal src.sinPort :=
    if_neg (Int.not_lt.mpr (Int.natCast_nonneg _))
  have hline : (⟨dotted src.bytes, src.sinPort, topic, type, value⟩ : Notice).line =
      dotted src.bytes ++ byte ':' :: (decimal src.sinPort ++ (ascii " - " ++ topic ++
        ascii " - ")) := by
    simp only [Notice.line, hport, ascii, List.append_assoc]
    rfl
  have hstart : dottedAddr src ++ ascii ":" ++ decimal src.sinPort =
      dottedAddr src ++ byte ':' :: decimal src.sinPort := by
    rw [List.append_assoc]
    rfl
  rw [hline, hstart]
  constructor
  · rintro ⟨rest, hrest⟩
    rw [List.append_assoc, List.cons_append] at hrest
    have hsame := (append_separator_inj colon_notMem_dotted colon_notMem_dotted hrest).1
    obtain ⟨ha, hb, hc, hd⟩ := dotted_inj hsame
    exact Prod.ext ha (Prod.ext hb (Prod.ext hc hd))
  · intro haddr
    have hsame : dottedAddr src = dotted src.bytes := by
      rw [dottedAddr, haddr, SockAddrIn.bytes, dotted_eq, dotted_eq]
    refine ⟨ascii " - " ++ topic ++ ascii " - ", ?_⟩
    rw [hsame, List.append_assoc, List.cons_append]

private theorem addr_of_showsSender {src : SockAddrIn} {heap : Memory} {data : Bytes}
    (known : (copyLen (datagramType data)).isSome) (h : ShowsSender src data heap) :
    src.addr = (2, 0, UInt8.ofNat (src.sinPort / 256), UInt8.ofNat src.sinPort) := by
  obtain ⟨packet, hbuilt⟩ := buildNotification_ok heap src ((received_front data).2 ▸ known)
  obtain ⟨p, hframe, -, -⟩ := packet_of_built hbuilt
  obtain ⟨ret, m, hr⟩ := exists_receives p [] (fun _ => 0)
  rw [← hframe] at hr
  obtain ⟨notice, hparse, hprefix⟩ := h packet [] ret m [] hbuilt hr
  rw [(parseNotification_received known hbuilt hr).2.2 maxLen (frame_fits_buffer hbuilt)] at hparse
  cases hparse
  exact prefix_line_iff.mp hprefix

/-- The sender is shown exactly if its address happens to be made of the family and the port
that stand in front of it. -/
theorem showsSender_iff (src : SockAddrIn) (heap : Memory) {data : Bytes}
    (known : (copyLen (datagramType data)).isSome) : ShowsSender src data heap ↔
      src.addr = (2, 0, UInt8.ofNat (src.sinPort / 256), UInt8.ofNat src.sinPort) := by
  refine ⟨addr_of_showsSender known, ?_⟩
  intro haddr packet rest ret m rest' hbuilt hr
  exact ⟨_, (parseNotification_received known hbuilt hr).2.2 maxLen (frame_fits_buffer hbuilt),
    prefix_line_iff.mpr haddr⟩

/-- `4001` is `15 * 256 + 161`. -/
theorem showsSender_iff_matching : ShowsSender ⟨4001, by decide, (2, 0, 15, 161)⟩
    (letterDatagram 'p' typeInt []) (fun _ => 0) :=
  (showsSender_iff _ _ (by decide +kernel)).mpr rfl

/-- The line for `127.0.0.1` starts with `2.0.15.161`. -/
theorem showsSender_fails :
    ¬ ShowsSender sampleSender (letterDatagram 'p' typeInt []) (fun _ => 0) := by
  intro h
  have haddr := addr_of_showsSender (by decide +kernel) h
  exact absurd haddr (by decide)

end MessageBroker.NotificationDisplay
