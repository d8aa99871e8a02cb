import MessageBroker.ClientTable
import MessageBroker.SubscriberHandlers

/-!
# The ID that a client is known by

The subscriber sends the ID it is started with, of any length, and the server copies it
into four bytes of a record. An ID that fits is found again in every later state.
-/
namespace MessageBroker.ClientIdentity
open ByteStrings WireFormat ServerStops SubscriberRecords SubscriberHandlers
open ServerHandlers HandlerOutcomes ServerRuns TransitionRuns ClientTable

/-- The accept branch up to the return of `check_and_add_new_sub`. -/
def identify (sv : Server) (p : Packet) (newTcpConFd : ℕ) :
    Except Stop (Server × Option Bytes × List Effect) := do
  let (sv, _) ← sv.clearBuffer.recvTcpPacket p
  sv.checkAndAddNewSub newTcpConFd

/-- The record `r` is the only one of the ID, and a CONNECT with it is refused while the
record is online and goes on with the record, and with its topics, while it is offline. -/
structure Recognized (subs : List Subscriber) (id : Bytes)
    (answer : ℕ → Except Stop (Server × Option Bytes × List Effect)) (r : SubRef) : Prop where
  record : RecordOf subs id r
  unique : ∀ d ∈ subs, d.id.val = id → d = r.sub
  refused : r.sub.online = true → ∀ fd, ∃ sv,
    answer fd = .ok (sv, none, [.print (alreadyConnectedLine id)]) ∧ sv.subs = subs
  resumed : r.sub.online = false → ∀ fd, ∃ sv, answer fd = .ok (sv, some id, []) ∧
    sv.subs = r.write { r.sub with fd := fd, online := true }

/-- The packet the subscriber sends is taken in every reachable state without a write behind
an array, and an ID that was admitted before is recognized. -/
structure IdentityPreserved (id : Bytes) (p : Packet) : Prop where
  sent : ∀ buff, connectToServer buff id = .ok p.bytes
  copied : ∀ k s fd, Reachable step (start k) s → (identify s.server p fd).toBool = true
  found : ∀ k s, Reachable step (start k) s → (∃ c ∈ s.admitted, c.id = id) →
    ∃ r, Recognized s.server.subs id (identify s.server p) r

variable {k : Sockets} {s s' : Sys}

/-- Every ID that was admitted has a record. -/
structure AdmittedRecorded (k : Sockets) (s : Sys) : Prop where
  inv : SysInvariant k s
  records : ∀ c ∈ s.admitted, ∃ d ∈ s.server.subs, d.id.val = c.id

private theorem admittedRecorded_start (k : Sockets) : AdmittedRecorded k (start k) :=
  ⟨sysInvariant_start k, by simp [start]⟩

private theorem admittedRecorded_step (h : AdmittedRecorded k s) {e : Event} {effects : List Effect}
    (hs : step s e = .ok (s', effects)) : AdmittedRecorded k s' := by
  have ho := outcome_of_step h.inv hs
  refine ⟨sysInvariant_outcome h.inv ho, ?_⟩
  cases ho with
  | refused line free record online subs svFds => exact subs ▸ h.records
  | @admitted fd _ p server line free room subs svFds =>
    intro c hc
    obtain ⟨d, hd, hid, -⟩ := exists_record_of_admitted subs
    rcases List.mem_cons.mp hc with rfl | hc
    · exact ⟨d, hd, hid⟩
    · obtain ⟨e, he, heid⟩ := h.records c hc
      by_cases hsame : e.id.val = p.text
      · exact ⟨d, hd, hid.trans (hsame.symm.trans heid)⟩
      · exact ⟨e, mem_of_admitted subs he hsame, heid⟩
  | @request _ p _ r topic server live found action text held subs svFds =>
    have hinto := (getSubscriberByFd_eq_some.mp found).1
    intro c hc
    exact subs ▸ (hinto.exists_id_write (actOn_id p.action topic r.sub) c.id).mpr (h.records c hc)
  | @shutdown _ p before behind _ r server line live found action subs svFds =>
    have hinto := (getSubscriberByFd_eq_some.mp found).1
    intro c hc
    have hiff := hinto.exists_id_write (x := { r.sub with online := false }) rfl c.id
    exact subs ▸ hiff.mpr (h.records c hc)
  | datagram subs svFds built opened => exact subs ▸ h.records

private theorem admittedRecorded_reachable (h : Reachable step (start k) s) :
    AdmittedRecorded k s :=
  h.invariant (admittedRecorded_start k) (fun _ _ _ _ h hs => admittedRecorded_step h hs)

private theorem text_stringPacket (action : UInt8) {id : Bytes} (hz : 0 ∉ id)
    (h : id.length + 1 ≤ maxLen - sizeofTcpHdr) : (stringPacket action id h).text = id :=
  untilNul_append_zero id [] hz

/-- An ID that fits `buff` reaches `check_and_add_new_sub` as it is. -/
theorem identify_eq (sv : Server) (fd : ℕ) {id : Bytes} (hz : 0 ∉ id)
    (h : id.length + 1 ≤ maxLen - sizeofTcpHdr) :
    identify sv (stringPacket connectAction id h) fd =
        (sv.clearBuffer.holding (stringPacket connectAction id h)).checkAndAddNewSub fd ∧
      (sv.clearBuffer.holding (stringPacket connectAction id h)).payloadString = .ok id := by
  have hbuf := stringPacket_buffered connectAction id h
  have hpayload : 0 ∈ (stringPacket connectAction id h).payload := by simp [stringPacket]
  constructor
  · rw [identify, recvTcpPacket_of_buffered _ hbuf]
    rfl
  · rw [payloadString_of_terminated sv.clearBuffer hbuf hpayload, text_stringPacket _ hz h]

private theorem identify_short (sv : Server) (fd : ℕ) {id : Bytes} (hz : 0 ∉ id)
    (hshort : id.length < maxId) (h : id.length + 1 ≤ maxLen - sizeofTcpHdr) :
    (identify sv (stringPacket connectAction id h) fd).toBool = true := by
  obtain ⟨heq, hid⟩ := identify_eq sv fd hz h
  rw [heq]
  rcases checkAndAddNewSub_cases _ fd hid hz with ⟨r, line, hc, -⟩ | ⟨subs, hc, -⟩ | ⟨-, hlong, -⟩
  · rw [hc]
    rfl
  · rw [hc]
    rfl
  · exact absurd hshort hlong

/-- An ID that does not fit is copied over the end of the array in a new record. -/
theorem identify_long (sv : Server) (fd : ℕ) {id : Bytes} (hz : 0 ∉ id)
    (hlong : ¬ id.length < maxId) (hnew : ∀ d ∈ sv.subs, d.id.val ≠ id)
    (h : id.length + 1 ≤ maxLen - sizeofTcpHdr) :
    identify sv (stringPacket connectAction id h) fd = .error .outsideId := by
  obtain ⟨heq, hid⟩ := identify_eq sv fd hz h
  rw [heq]
  rcases checkAndAddNewSub_cases _ fd hid hz with
    ⟨r, line, -, hr, -⟩ | ⟨subs, -, ⟨r, hr, -⟩ | ⟨-, x, hx, -⟩⟩ | ⟨hc, -⟩
  · exact absurd hr.id (hnew _ hr.into.mem)
  · exact absurd hr.id (hnew _ hr.into.mem)
  · exact absurd (hx ▸ x.property.1) hlong
  · exact hc

/-- An admitted ID that fits is recognized. -/
theorem recognized_of_admitted (h : AdmittedRecorded k s) {id : Bytes} (hz : 0 ∉ id)
    (hadm : ∃ c ∈ s.admitted, c.id = id) (hlen : id.length + 1 ≤ maxLen - sizeofTcpHdr) :
    ∃ r, Recognized s.server.subs id
      (identify s.server (stringPacket connectAction id hlen)) r := by
  obtain ⟨c, hc, rfl⟩ := hadm
  obtain ⟨d, hd, hid⟩ := h.records c hc
  obtain ⟨r, hr, rfl⟩ := exists_recordOf h.inv hd
  rw [hid] at hr
  refine ⟨r, hr, ?_, ?_, ?_⟩
  · intro d hd heq
    exact eq_of_id h.inv.ids hd hr.into.mem (Subtype.ext (heq.trans hr.id.symm))
  · intro hon fd
    obtain ⟨heq, hx⟩ := identify_eq s.server fd hz hlen
    rcases admission_cases fd c.id s.server.subs with ⟨r', hr', hoff, -⟩ | ⟨r', -, -, ha⟩ | ⟨hnone, -⟩
    · rw [hr.eq hr', hoff] at hon
      cases hon
    · refine ⟨s.server.clearBuffer.holding (stringPacket connectAction c.id hlen), ?_, rfl⟩
      simp only [heq, Server.checkAndAddNewSub, hx, ok_bind, holding_subs, clearBuffer_subs, ha]
    · exact absurd hr.id (hnone _ hr.into.mem)
  · intro hoff fd
    obtain ⟨heq, hx⟩ := identify_eq s.server fd hz hlen
    rcases admission_cases fd c.id s.server.subs with ⟨r', hr', -, ha⟩ | ⟨r', hr', hon, -⟩ | ⟨hnone, -⟩
    · rw [← hr.eq hr'] at ha
      refine ⟨{ s.server.clearBuffer.holding (stringPacket connectAction c.id hlen) with
        subs := r.write { r.sub with fd := fd, online := true } }, ?_, rfl⟩
      simp only [heq, Server.checkAndAddNewSub, hx, ok_bind, holding_subs, clearBuffer_subs, ha]
    · rw [hr.eq hr', hon] at hoff
      cases hoff
    · exact absurd hr.id (hnone _ hr.into.mem)

/-- The packet of a client is determined by what it sends. -/
theorem packet_of_sent {buff : Memory} {id : Bytes} {p : Packet}
    (h : connectToServer buff id = .ok p.bytes) :
    ∃ hlen : id.length + 1 ≤ maxLen - sizeofTcpHdr, p = stringPacket connectAction id hlen := by
  by_cases hlen : id.length + 1 ≤ maxLen - sizeofTcpHdr
  · rw [connectToServer, sendString_eq _ _ hlen] at h
    exact ⟨hlen, Packet.bytes_injective (Except.ok.inj h).symm⟩
  · rw [connectToServer, sendString_error _ _ hlen] at h
    cases h

/-- The identity of a client is preserved exactly if its ID has at most three characters. -/
theorem identityPreserved_iff {id : Bytes} (hz : 0 ∉ id) :
    (∃ p, IdentityPreserved id p) ↔ id.length < maxId := by
  constructor
  · rintro ⟨p, hp⟩
    obtain ⟨hlen, rfl⟩ := packet_of_sent (hp.sent (fun _ => 0))
    by_contra hlong
    have hcopied := hp.copied sampleSockets (start sampleSockets) 5 (Reachable.refl _)
    rw [identify_long _ _ hz hlong (by simp [start])] at hcopied
    cases hcopied
  · intro hshort
    have hlen : id.length + 1 ≤ maxLen - sizeofTcpHdr := hshort.trans (by decide)
    refine ⟨stringPacket connectAction id hlen, ?_, ?_, ?_⟩
    · exact fun buff => sendString_eq buff connectAction hlen
    · exact fun k s fd _ => identify_short s.server fd hz hshort hlen
    · exact fun k s hs hadm => recognized_of_admitted (admittedRecorded_reachable hs) hz hadm hlen

theorem identityPreserved_iff_abc :
    ∃ p, IdentityPreserved [byte 'A', byte 'B', byte 'C'] p :=
  (identityPreserved_iff (by decide)).mpr (by decide)

/-- The terminator of an ID of four characters is written behind the array. -/
theorem identityPreserved_fails : ¬ ∃ p, IdentityPreserved (ascii "ABCD") p := by
  rintro ⟨p, hp⟩
  have hz : 0 ∉ ascii "ABCD" := by decide +kernel
  obtain ⟨hlen, rfl⟩ := packet_of_sent (hp.sent (fun _ => 0))
  have hcopied := hp.copied sampleSockets (start sampleSockets) 5 (Reachable.refl _)
  rw [identify_long _ _ hz (by decide +kernel) (by simp [start])] at hcopied
  cases hcopied

end MessageBroker.ClientIdentity
