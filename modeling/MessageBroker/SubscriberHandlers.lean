import MessageBroker.Notification

/-!
# The handlers of the subscriber

The subscriber builds its packets in a buffer of its own, which it clears before each
command, and sends them with the same `send_tcp_packet` as the server.
-/
namespace MessageBroker.SubscriberHandlers
open ByteStrings WireFormat ServerStops Notification

/-- The string is copied behind a header for it, without a look at its length. -/
def sendString (buff : Memory) (action : UInt8) (s : Bytes) : Except Stop Bytes :=
  let buff := (buff.store 0 [action]).store 1 (le32 (s.length + 1))
  if sizeofTcpHdr + (s.length + 1) ≤ maxLen then .ok (frame (buff.store sizeofTcpHdr (s ++ [0])))
  else .error .outsideBuff

/-- What `connect_to_server` sends on the new connection. -/
def connectToServer (buff : Memory) (id : Bytes) : Except Stop Bytes :=
  sendString buff connectAction id

def shutdownAndCloseConnFd (connectionFd : ℕ) : List Effect :=
  [.shutdown connectionFd, .close connectionFd]

/-- The command `exit`. Nothing is received between the packet and the close. -/
def handleShutdown (connectionFd : ℕ) : List Effect :=
  let buff : Memory := (Memory.store (fun _ => 0) 0 [shutdownClose]).store 1 (le32 0)
  .send connectionFd (frame buff) :: shutdownAndCloseConnFd connectionFd

/-- A block that starts with a packet is sent as this packet. -/
theorem frame_store (m : Memory) (p : Packet) : frame (m.store 0 p.bytes) = p.bytes := by
  have hself := Memory.read_store_self m 0 p.bytes
  have hle : sizeofTcpHdr ≤ p.bytes.length := by
    rw [p.length_bytes]
    exact Nat.le_add_right _ _
  have hlen : hdrLen (m.store 0 p.bytes) = p.payload.length := by
    have hdeclared := declaredLen_bytes p []
    rw [List.append_nil] at hdeclared
    rw [hdrLen_eq_declaredLen p.bytes hle, hdeclared]
    rw [Memory.read_eq_take _ _ hle, hself]
  rw [frame, hlen, Int.toNat_natCast, ← p.length_bytes, hself]

theorem sendString_eq (buff : Memory) (action : UInt8) {s : Bytes}
    (h : s.length + 1 ≤ maxLen - sizeofTcpHdr) :
    sendString buff action s = .ok (stringPacket action s h).bytes := by
  have hfits : sizeofTcpHdr + (s.length + 1) ≤ maxLen := by
    simp only [maxLen, sizeofTcpHdr] at h ⊢
    omega
  have hbytes : (stringPacket action s h).bytes = [action] ++ le32 (s.length + 1) ++ (s ++ [0]) := by
    rw [Packet.bytes, stringPacket, List.length_append]
    rfl
  have hstore := Memory.store_append buff 0 [action] (le32 (s.length + 1))
  have hstore' := Memory.store_append buff 0 ([action] ++ le32 (s.length + 1)) (s ++ [0])
  rw [← hbytes] at hstore'
  rw [sendString, if_pos hfits, ← frame_store buff, ← hstore', ← hstore]
  rfl

theorem sendString_error (buff : Memory) (action : UInt8) {s : Bytes}
    (h : ¬ s.length + 1 ≤ maxLen - sizeofTcpHdr) :
    sendString buff action s = .error .outsideBuff := by
  rw [sendString, if_neg]
  simp only [maxLen, sizeofTcpHdr] at h ⊢
  omega

theorem handleShutdown_eq (connectionFd : ℕ) : handleShutdown connectionFd =
    [.send connectionFd shutdownPacket.bytes, .shutdown connectionFd, .close connectionFd] := by
  have hstore := Memory.store_append (fun _ => 0) 0 [shutdownClose] (le32 0)
  rw [← frame_store (fun _ => 0) shutdownPacket]
  exact congrArg (fun m => Effect.send connectionFd (frame m) :: _) hstore

end MessageBroker.SubscriberHandlers
