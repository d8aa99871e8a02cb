import MessageBroker.Notification
import MessageBroker.PacketReceipt
import MessageBroker.PollArray
import MessageBroker.SubscriberRecords
import MessageBroker.TopicMatching

/-!
# The handlers of the server

Each handler takes the globals of the server to the new ones and to what it does to the
outside, or ends the server. `recv_tcp_packet` is the one of `PacketFraming`, seen from
its caller: the packet lies at the front of `buff`, and what was behind it still does.
-/
namespace MessageBroker.ServerHandlers
open ByteStrings WireFormat ServerStops PollArray SubscriberRecords Notification TopicMatching

structure Server where
  buff : Memory
  subs : List Subscriber
  svFds : SvFds

/-- `inet_ntoa` is passed the address, in network order. -/
def newClientLine (id : Bytes) (a : SockAddrIn) : Bytes :=
  ascii "New client " ++ id ++ ascii " connected from " ++
    dotted [a.addr.1, a.addr.2.1, a.addr.2.2.1, a.addr.2.2.2] ++ ascii ":" ++ decimal a.sinPort ++
    ascii ".\n"

def alreadyConnectedLine (id : Bytes) : Bytes :=
  ascii "Client " ++ id ++ ascii " already connected.\n"

def disconnectedLine (id : ClientId) : Bytes :=
  ascii "Client " ++ id.val ++ ascii " disconnected.\n"

namespace Server

def clearBuffer (sv : Server) : Server := { sv with buff := fun _ => 0 }

def recvTcpPacket (sv : Server) (p : Packet) : Except Stop (Server × ℤ) :=
  if p.bytes.length ≤ maxLen then
    .ok ({ sv with buff := sv.buff.store 0 p.bytes }, p.bytes.length)
  else .error .outsideBuff

/-- The C string behind the header in `buff`. -/
def payloadString (sv : Server) : Except Stop Bytes :=
  match readCStr (sv.buff.read sizeofTcpHdr (maxLen - sizeofTcpHdr)) with
  | some s => .ok s
  | none => .error .unterminatedString

/-- The returned ID is `none` for an ID that is connected already. -/
def checkAndAddNewSub (sv : Server) (sockfd : ℕ) :
    Except Stop (Server × Option Bytes × List Effect) := do
  let recvId ← sv.payloadString
  match admission sockfd recvId sv.subs with
  | .resumed subs => .ok ({ sv with subs := subs }, some recvId, [])
  | .alreadyConnected =>
    .ok (sv, none, [.print (alreadyConnectedLine recvId)])
  | .unknown =>
    if h : recvId.length < maxId ∧ 0 ∉ recvId then
      .ok ({ sv with subs := sv.subs ++ [⟨sockfd, ⟨recvId, h⟩, [], true⟩] }, some recvId, [])
    else .error .outsideId

def sendShutdownToIntruder (sv : Server) (sockfd : ℕ) : Server × List Effect :=
  let buff := (sv.clearBuffer.buff.store 0 [shutdownIntruder]).store 1 (le32 0)
  ({ sv with buff := buff }, [.send sockfd (frame buff)])

/-- The branch of `start_server` for a new connection; the result says whose it is. -/
def acceptBranch (sv : Server) (newTcpConFd : ℕ) (newClientAddr : SockAddrIn) (p : Packet) :
    Except Stop (Server × Option Bytes × List Effect) := do
  let (sv, ret) ← sv.clearBuffer.recvTcpPacket p
  if ret < 0 then .error (.die "recv connect action failed!\n")
  else
    let (sv, retId, effects) ← sv.checkAndAddNewSub newTcpConFd
    match retId with
    | none =>
      let (sv, refusal) := sv.sendShutdownToIntruder newTcpConFd
      .ok (sv, none, effects ++ refusal)
    | some id =>
      let svFds ← sv.svFds.addNewPollfdStruc newTcpConFd
      .ok ({ sv with svFds := svFds }, some id, effects ++ [.print (newClientLine id newClientAddr)])

def handleShutdownSub (sv : Server) (tcpSubscriberFd : ℕ) : Except Stop (Server × List Effect) :=
  match getSubscriberByFd sv.subs tcpSubscriberFd with
  | none => .error (.die "get sub failed in handle shutdown!\n")
  | some r =>
    match sv.svFds.getPollStrucByFd tcpSubscriberFd with
    | none => .error (.die "get poll struc by fd failed in handle shutdown!\n")
    | some idx =>
      .ok ({ sv with subs := r.write { r.sub with online := false }, svFds := sv.svFds.removeAt idx },
        [.shutdown r.sub.fd, .close r.sub.fd, .print (disconnectedLine r.sub.id)])

def handleSubscribe (sv : Server) (tcpSubscriberFd : ℕ) : Except Stop (Server × List Effect) :=
  match getSubscriberByFd sv.subs tcpSubscriberFd with
  | none => .error (.die "get_subscriber_by_fd failed in subscribe!\n")
  | some r => do
    let topic ← sv.payloadString
    .ok ({ sv with subs := r.write { r.sub with topics := r.sub.topics ++ [topic] } }, [])

/-- `find` and `erase` concern the first of several equal topics. -/
def handleUnsubscribe (sv : Server) (tcpSubscriberFd : ℕ) : Except Stop (Server × List Effect) :=
  match getSubscriberByFd sv.subs tcpSubscriberFd with
  | none => .error (.die "get_subscriber_by_fd in unsubscribe failed!\n")
  | some r => do
    let topic ← sv.payloadString
    if topic ∈ r.sub.topics then
      .ok ({ sv with subs := r.write { r.sub with topics := r.sub.topics.erase topic } }, [])
    else .error (.die "Error: Subscriber is not subbed to this topic!\n")

/-- The `switch` has no case for the other actions. -/
def parseTcpClientMessage (sv : Server) (tcpSubscriberFd : ℕ) (p : Packet) :
    Except Stop (Server × List Effect) := do
  let (sv, ret) ← sv.recvTcpPacket p
  if ret < 0 then .error (.die "recv_tcp_packet failed while parsing tcp client msg!\n")
  else if sv.buff 0 = subscribeAction then sv.handleSubscribe tcpSubscriberFd
  else if sv.buff 0 = unsubscribeAction then sv.handleUnsubscribe tcpSubscriberFd
  else if sv.buff 0 = shutdownClose then sv.handleShutdownSub tcpSubscriberFd
  else .ok (sv, [])

/-- The body of the loop in `shutdown_server`. -/
def shutdownClient (sv : Server) (fd : ℕ) : Server × List Effect :=
  let buff := (sv.clearBuffer.buff.store 0 [shutdownClose]).store 1 (le32 0)
  ({ sv with buff := buff }, [.send fd (frame buff), .shutdown fd, .close fd])

def shutdownClients (sv : Server) : List Pollfd → Server × List Effect
  | [] => (sv, [])
  | e :: es =>
    let (sv, effects) := sv.shutdownClient e.fd
    let (sv, rest) := shutdownClients sv es
    (sv, effects ++ rest)

/-- What `shutdown_server` does before it frees the array and exits. -/
def shutdownServer (sv : Server) : Server × List Effect :=
  let (sv, effects) := sv.shutdownClients (sv.svFds.entries.drop 3)
  let tcpSock := (sv.svFds.entries.getD 1 default).fd
  let udpSock := (sv.svFds.entries.getD 2 default).fd
  (sv, effects ++ [.shutdown tcpSock, .close tcpSock, .shutdown udpSock, .close udpSock])

end Server

/-- The exception of a malformed pattern is not caught. -/
def subIsInteresedInTopic (topic : Bytes) : List Bytes → Except Stop Bool
  | [] => .ok false
  | subbedTopic :: topics =>
    match matchesTopic topic subbedTopic with
    | .error e => .error (.regexError e)
    | .ok true => .ok true
    | .ok false => subIsInteresedInTopic topic topics

/-- The patterns of offline subscribers are tried as well. -/
def getSubsByTopic (topic : Bytes) : List Subscriber → Except Stop (List Subscriber)
  | [] => .ok []
  | sub :: subs => do
    let interested ← subIsInteresedInTopic topic sub.topics
    let interestedSubs ← getSubsByTopic topic subs
    .ok (if interested && sub.online then sub :: interestedSubs else interestedSubs)

def sendPacketToSubscribers (subs : List Subscriber) (packet : Memory) :
    Except Stop (List Effect) :=
  match readCStr (packet.read topicOffset maxTopic) with
  | none => .error .unterminatedString
  | some topic => do
    let interestedSubs ← getSubsByTopic topic subs
    .ok (interestedSubs.map (fun sub => .send sub.fd (frame packet)))

namespace Server

def parseUdpPacket (sv : Server) (udpSenderAddr : SockAddrIn) (heap : Memory) :
    Except Stop (Server × List Effect) := do
  let packet ← buildNotification sv.buff heap udpSenderAddr
  let effects ← sendPacketToSubscribers sv.subs packet
  .ok (sv, effects)

/-- The branch of `start_server` for a datagram: `recvfrom` drops what exceeds its size. -/
def udpBranch (sv : Server) (src : SockAddrIn) (data : Bytes) (heap : Memory) :
    Except Stop (Server × List Effect) :=
  let received := data.take maxUdpPacketLen
  let ret : ℤ := received.length
  if ret < 0 ∨ ret > maxUdpPacketLen then .error (.die "recvfrom failed!\n")
  else parseUdpPacket { sv with buff := sv.clearBuffer.buff.store 0 received } src heap

end Server

/-- A packet at the front of `buff`. -/
def Server.holding (sv : Server) (p : Packet) : Server :=
  { sv with buff := sv.buff.store 0 p.bytes }

@[simp] theorem clearBuffer_subs (sv : Server) : sv.clearBuffer.subs = sv.subs := rfl
@[simp] theorem clearBuffer_svFds (sv : Server) : sv.clearBuffer.svFds = sv.svFds := rfl
@[simp] theorem holding_subs (sv : Server) (p : Packet) : (sv.holding p).subs = sv.subs := rfl
@[simp] theorem holding_svFds (sv : Server) (p : Packet) : (sv.holding p).svFds = sv.svFds := rfl
theorem holding_buff (sv : Server) (p : Packet) :
    (sv.holding p).buff = sv.buff.store 0 p.bytes := rfl

theorem recvTcpPacket_of_buffered (sv : Server) {p : Packet} (h : p.Buffered) :
    sv.recvTcpPacket p = .ok (sv.holding p, (p.bytes.length : ℤ)) := if_pos h

/-- However the packet arrives, `recv_tcp_packet` returns what the handlers continue with. -/
theorem recvTcpPacket_receives (sv : Server) {p : Packet} (h : p.Buffered) {rest rest' : Bytes}
    {ret : ℤ} {m : Memory}
    (hr : PacketReceipt.Receives (PacketFraming.recvTcpPacket sv.buff) (p.bytes ++ rest) ret m rest') :
    sv.recvTcpPacket p = .ok (sv.holding p, ret) ∧ rest' = rest ∧
      ∀ a < 2 ^ 64, m a = (sv.holding p).buff a := by
  obtain ⟨hret, hrest, hmem⟩ := PacketReceipt.receives_packet hr
  exact ⟨hret ▸ recvTcpPacket_of_buffered sv h, hrest, hmem⟩

theorem recvTcpPacket_of_not_buffered (sv : Server) {p : Packet} (h : ¬ p.Buffered) :
    sv.recvTcpPacket p = .error .outsideBuff := if_neg h

theorem payloadString_of_terminated (sv : Server) {p : Packet} (h : p.Buffered)
    (hz : 0 ∈ p.payload) : (sv.holding p).payloadString = .ok p.text := by
  obtain ⟨k, hk⟩ := p.read_store_bytes sv.buff h
  simp only [Server.payloadString, holding_buff, hk, readCStr_append_of_mem _ hz, Packet.text]

/-- In a cleared buffer the string ends with the payload, or it fills the buffer. -/
theorem payloadString_of_cleared (sv : Server) {p : Packet} (h : p.Buffered) :
    (sv.clearBuffer.holding p).payloadString = .ok p.text ∨
      ((sv.clearBuffer.holding p).payloadString = .error .unterminatedString ∧
        maxId ≤ p.text.length) := by
  obtain ⟨k, hk⟩ := p.read_store_bytes sv.clearBuffer.buff h
  rw [show sv.clearBuffer.buff = fun _ => 0 from rfl, Memory.read_zero] at hk
  have hbuff : (sv.clearBuffer.holding p).buff = Memory.store (fun _ => 0) 0 p.bytes := rfl
  simp only [Server.payloadString, hbuff, hk]
  cases hs : readCStr (p.payload ++ List.replicate k 0) with
  | some t =>
    left
    rw [readCStr_append_replicate hs]
    rfl
  | none =>
    right
    refine ⟨rfl, ?_⟩
    have hnone : 0 ∉ p.payload ++ List.replicate k 0 := by
      intro hmem
      simp [readCStr, hmem] at hs
    have hlen := congrArg List.length hk
    simp only [Memory.length_read, List.length_append, List.length_replicate, maxLen,
      sizeofTcpHdr] at hlen
    have hk0 : k = 0 := by
      by_contra hk0
      exact hnone (by simp [hk0])
    rw [Packet.text, untilNul_of_notMem (by simpa [hk0] using hnone)]
    simp only [maxId]
    omega

end MessageBroker.ServerHandlers
