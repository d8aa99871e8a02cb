import MessageBroker.CommandLine
import MessageBroker.NumberDisplay
import MessageBroker.StreamDelivery

/-!
# What a subscriber makes of its stream

`run_subscriber` receives one packet after the other into its cleared buffer, prints
notifications and ends when the server tells it to.
-/
namespace MessageBroker.SubscriberOutput
open ByteStrings WireFormat ServerStops PacketFraming PacketReceipt Notification
open NotificationLayout NotificationDisplay NumberDisplay HandlerOutcomes TransitionRuns
open PublishSubscribe SubscriberHandlers CommandLine ServerRuns ClientLinks ClientTable
open OrderlyExit StreamDelivery

/-- The branch of `run_subscriber` for the connection, behind `recv_tcp_packet`. Other actions
have no case. -/
def socketBranch (connectionFd : ℕ) (buff : Memory) : Except Stop Reaction :=
  if buff 0 = shutdownIntruder then .ok ⟨shutdownAndCloseConnFd connectionFd, [], true⟩
  else if buff 0 = shutdownClose then .ok ⟨shutdownAndCloseConnFd connectionFd, [], true⟩
  else if buff 0 = notificationAction then do
    let notice ← parseNotification buff maxLen
    .ok ⟨[.print notice.line, .print (valueLine notice)], [], false⟩
  else .ok ⟨[], [], false⟩

section

variable {m m' : Memory} {size off : ℕ}

private theorem load_congr (h : ∀ a < size, m a = m' a) (n : ℕ) :
    load m size off n = load m' size off n := by
  rw [load, load]
  split_ifs with hle
  · rw [Memory.read_congr (fun a ha => h a (ha.trans_le hle))]
  · rfl

private theorem loadString_congr (h : ∀ a < size, m a = m' a) (hoff : off ≤ size) :
    loadString m size off = loadString m' size off := by
  rw [loadString, loadString, Memory.read_congr (fun a ha => h a (by omega))]

private theorem loadInt_congr (h : ∀ a < size, m a = m' a) (hoff : off + 4 ≤ size) :
    loadInt m size off = loadInt m' size off := by
  rw [loadInt, loadInt, load_congr h, h off (by omega), h (off + 1) (by omega),
    h (off + 2) (by omega), h (off + 3) (by omega)]

/-- Nothing behind the buffer is looked at. -/
theorem parseNotification_congr (h : ∀ a < maxLen, m a = m' a) :
    parseNotification m maxLen = parseNotification m' maxLen := by
  have htype : m typeOffset = m' typeOffset := h _ (by decide)
  have hvalue (type : UInt8) : loadValue m maxLen type = loadValue m' maxLen type := by
    rw [loadValue, loadValue, load_congr h, load_congr h, load_congr h,
      loadString_congr h (by decide)]
  rw [parseNotification, parseNotification, loadString_congr h (by decide),
    loadInt_congr h (by decide), loadString_congr h (by decide), load_congr h, htype, hvalue]

end

private theorem socketBranch_congr (connectionFd : ℕ) {m m' : Memory}
    (h : ∀ a < maxLen, m a = m' a) :
    socketBranch connectionFd m = socketBranch connectionFd m' := by
  rw [socketBranch, socketBranch, parseNotification_congr h, h 0 (by decide)]

/-- The rounds of the loop in which something is received, in whatever pieces. -/
inductive Reads (connectionFd : ℕ) : Bytes → List Reaction → Bytes → Prop
  | waits (stream : Bytes) : Reads connectionFd stream [] stream
  | exits {stream rest : Bytes} {ret : ℤ} {buff : Memory} {reaction : Reaction}
      (received : Receives (recvTcpPacket (fun _ => 0)) stream ret buff rest)
      (branch : socketBranch connectionFd buff = .ok reaction) (ends : reaction.exits = true) :
      Reads connectionFd stream [reaction] rest
  | goesOn {stream between rest : Bytes} {ret : ℤ} {buff : Memory} {reaction : Reaction}
      {reactions : List Reaction}
      (received : Receives (recvTcpPacket (fun _ => 0)) stream ret buff between)
      (branch : socketBranch connectionFd buff = .ok reaction) (ends : reaction.exits = false)
      (next : Reads connectionFd between reactions rest) :
      Reads connectionFd stream (reaction :: reactions) rest

/-- The notice of a datagram: of its sender only the port is right. -/
def noticeOf (src : SockAddrIn) (data : Bytes) : Notice :=
  ⟨dotted src.bytes, src.sinPort, datagramTopic data, datagramType data, datagramValue data⟩

/-- What a subscriber is to do about a post. -/
def reactionTo (connectionFd : ℕ) : Post → Reaction
  | .refusal => ⟨shutdownAndCloseConnFd connectionFd, [], true⟩
  | .notice src data _ _ =>
    ⟨[.print (noticeOf src data).line, .print (valueLine (noticeOf src data))], [], false⟩
  | .farewell => ⟨shutdownAndCloseConnFd connectionFd, [], true⟩

variable {connectionFd : ℕ} {q : Post} {posts : List Post} {rest : Bytes}
  {reactions : List Reaction}

private theorem action_of_receives {p : Packet} {ret : ℤ} {buff m : Memory} {rest' : Bytes}
    (h : Receives (recvTcpPacket buff) (p.bytes ++ rest) ret m rest') : m 0 = p.action := by
  obtain ⟨-, -, hmem⟩ := receives_packet h
  have hpos : 0 < p.bytes.length := p.length_bytes_pos
  rw [hmem 0 (by decide)]
  simp [Memory.store, Packet.bytes]

theorem branch_of_post (connectionFd : ℕ) {ret : ℤ} {m : Memory} {rest' : Bytes}
    (h : Receives (recvTcpPacket (fun _ => 0)) (q.bytes ++ rest) ret m rest') :
    rest' = rest ∧ socketBranch connectionFd m = .ok (reactionTo connectionFd q) := by
  have haction : m 0 = q.packet.action := action_of_receives h
  refine ⟨(receives_packet h).2.1, ?_⟩
  cases q with
  | refusal => exact if_pos haction
  | farewell =>
    have hclose : m 0 = shutdownClose := haction
    rw [socketBranch, hclose, if_neg (by decide), if_pos rfl]
    rfl
  | notice src data heap known =>
    have hnotification : m 0 = notificationAction := haction
    obtain ⟨packet, hbuilt⟩ := buildNotification_ok heap src ((received_front data).2 ▸ known)
    have hframe : frame packet = (Post.notice src data heap known).bytes := frame_eq hbuilt
    rw [← hframe] at h
    have hparse := (parseNotification_received known hbuilt h).2.2 maxLen (frame_fits_buffer hbuilt)
    rw [socketBranch, hnotification, if_neg (by decide), if_neg (by decide), if_pos rfl, hparse]
    rfl

/-- The branch with the post in the buffer, however it got there. -/
theorem branch_of_store (connectionFd : ℕ) (q : Post) :
    socketBranch connectionFd (Memory.store (fun _ => 0) 0 q.packet.bytes) =
      .ok (reactionTo connectionFd q) := by
  obtain ⟨ret, m, hr⟩ := exists_receives q.packet [] (fun _ => 0)
  have hmem := (receives_packet hr).2.2
  rw [socketBranch_congr connectionFd (fun a ha => (hmem a (ha.trans (by decide))).symm)]
  exact (branch_of_post connectionFd hr).2

private theorem not_receives_nil {buff m : Memory} {ret : ℤ} :
    ¬ Receives (recvTcpPacket buff) [] ret m rest := by
  intro h
  rw [recvTcpPacket_eq] at h
  cases h with
  | call positive asked available next => exact absurd available (Nat.not_le.mpr positive)

/-- What is received of posts is the first of them. -/
theorem front_of_posts (connectionFd : ℕ) {between : Bytes} {ret : ℤ} {m : Memory}
    (h : Receives (recvTcpPacket (fun _ => 0)) (posts.flatMap Post.bytes) ret m between) :
    ∃ q qs, posts = q :: qs ∧ between = qs.flatMap Post.bytes ∧
      socketBranch connectionFd m = .ok (reactionTo connectionFd q) := by
  cases posts with
  | nil => exact absurd h not_receives_nil
  | cons q qs =>
    rw [List.flatMap_cons] at h
    exact ⟨q, qs, rfl, branch_of_post connectionFd h⟩

/-- Whatever the pieces are, a subscriber acts on the posts one after the other. -/
theorem reads_posts (h : Reads connectionFd (posts.flatMap Post.bytes) reactions rest) :
    ∃ shown pending, posts = shown ++ pending ∧
      reactions = shown.map (reactionTo connectionFd) ∧ rest = pending.flatMap Post.bytes := by
  generalize hstream : posts.flatMap Post.bytes = stream at h
  induction h generalizing posts with
  | waits stream => exact ⟨[], posts, rfl, rfl, hstream.symm⟩
  | exits received branch ends =>
    rw [← hstream] at received
    obtain ⟨q, qs, rfl, hrest, hbranch⟩ := front_of_posts connectionFd received
    rw [branch] at hbranch
    cases hbranch
    exact ⟨[q], qs, rfl, rfl, hrest⟩
  | goesOn received branch ends next ih =>
    rw [← hstream] at received
    obtain ⟨q, qs, rfl, hbetween, hbranch⟩ := front_of_posts connectionFd received
    rw [branch] at hbranch
    cases hbranch
    obtain ⟨shown, pending, rfl, rfl, hrest⟩ := ih hbetween.symm
    exact ⟨q :: shown, pending, rfl, rfl, hrest⟩

/-- It can go on until it is told to end or there is nothing left. -/
theorem exists_reads (connectionFd : ℕ) (posts : List Post) : ∃ reactions rest,
    Reads connectionFd (posts.flatMap Post.bytes) reactions rest ∧
      (rest = [] ∨ ∃ reaction ∈ reactions, reaction.exits = true) := by
  induction posts with
  | nil => exact ⟨[], [], .waits [], .inl rfl⟩
  | cons q qs ih =>
    obtain ⟨ret, m, hr⟩ := exists_receives q.packet (qs.flatMap Post.bytes) (fun _ => 0)
    have hbranch := (branch_of_post connectionFd hr).2
    rw [List.flatMap_cons]
    cases hends : (reactionTo connectionFd q).exits with
    | true =>
      exact ⟨_, _, .exits hr hbranch hends, .inr ⟨_, List.mem_singleton_self _, hends⟩⟩
    | false =>
      obtain ⟨reactions, rest, hreads, hdone⟩ := ih
      refine ⟨_, rest, .goesOn hr hbranch hends hreads, hdone.imp_right ?_⟩
      rintro ⟨reaction, hmem, hexits⟩
      exact ⟨reaction, List.mem_cons_of_mem _ hmem, hexits⟩

/-- All bytes that were sent to a subscriber. -/
def sentTo (i : ℕ) (events : List NetEvent) (n : Net) : Bytes :=
  (events.flatMap (taken i)).flatMap Packet.bytes ++ stream n i

/-- In a run in which each request is resolved to its sender, a subscriber prints the lines of the
datagrams that the broker has posted to it, in their order, or ends at a refusal, however the
bytes that were sent to it are cut; and it can read on until nothing is left. -/
theorem shown_in_order {k : Sockets} {n : Net} {events : List NetEvent}
    {effects : List (List Effect)} (hc : EachStep netStep Attributed (begin k) events)
    (hr : run netStep (begin k) events = .ok (n, effects)) (connectionFd i : ℕ) :
    (∀ reactions rest, Reads connectionFd (sentTo i events n) reactions rest →
      ∃ shown pending, inbox i (follow hubStep Broker.empty events).2 = shown ++ pending ∧
        reactions = shown.map (reactionTo connectionFd) ∧ rest = pending.flatMap Post.bytes) ∧
    ∃ reactions rest, Reads connectionFd (sentTo i events n) reactions rest ∧
      (rest = [] ∨ ∃ reaction ∈ reactions, reaction.exits = true) := by
  have hsent : sentTo i events n =
      (inbox i (follow hubStep Broker.empty events).2).flatMap Post.bytes := sent_eq_posted hc hr i
  rw [hsent]
  exact ⟨fun reactions rest h => reads_posts h, exists_reads connectionFd _⟩

theorem shown_in_order_session : ∃ n effects,
    run netStep (begin sampleSockets) session = .ok (n, effects) ∧ ∀ i reactions rest,
      Reads 3 (sentTo i session n) reactions rest → ∃ shown pending,
        inbox i (follow hubStep Broker.empty session).2 = shown ++ pending ∧
        reactions = shown.map (reactionTo 3) ∧ rest = pending.flatMap Post.bytes := by
  have hrun : completesIn netStep (fun n _ => n.links.length = 3) (begin sampleSockets)
      session = true := by
    decide +kernel
  obtain ⟨n, effects, hr, -⟩ := exists_run_of_completesIn hrun
  exact ⟨n, effects, hr, fun i => (shown_in_order (by decide +kernel) hr 3 i).1⟩

end MessageBroker.SubscriberOutput
