import MessageBroker.ServerHandlers
import MessageBroker.TransitionRuns

/-!
# What one call of a handler can do

For each handler one theorem lists its outcomes: how it ends the server, or which record
and which entry it changes. Everything about runs is derived from these.
-/
namespace MessageBroker.HandlerOutcomes
open ByteStrings WireFormat ServerStops PollArray SubscriberRecords Notification TopicMatching
open ServerHandlers TransitionRuns

/-- What a CONNECT has to fulfil for the server to survive it. -/
structure CanConnect (sv : Server) (p : Packet) : Prop where
  buffered : p.Buffered
  short : p.text.length < maxId
  room : sv.svFds.count < backlogMax ∨ ∃ r, RecordOf sv.subs p.text r ∧ r.sub.online = true

/-- The vector after the admission of an ID. -/
def Admitted (subs : List Subscriber) (fd : ℕ) (x : Bytes) (subs' : List Subscriber) : Prop :=
  (∃ r, RecordOf subs x r ∧ r.sub.online = false ∧
    subs' = r.write { r.sub with fd := fd, online := true }) ∨
  ((∀ d ∈ subs, d.id.val ≠ x) ∧ ∃ id : ClientId, id.val = x ∧ subs' = subs ++ [⟨fd, id, [], true⟩])

/-- The record of the admitted ID is online on the new descriptor and has kept its topics, the
others are as before. -/
theorem mem_cases_of_admitted {subs subs' : List Subscriber} {fd : ℕ} {x : Bytes}
    (hids : (subs.map Subscriber.id).Nodup) (ha : Admitted subs fd x subs') {d : Subscriber}
    (hd : d ∈ subs') : (d.id.val = x ∧ d.fd = fd ∧ d.online = true ∧
      ((∃ e ∈ subs, e.id = d.id ∧ e.topics = d.topics) ∨
        ((∀ e ∈ subs, e.id.val ≠ x) ∧ d.topics = []))) ∨
      (d ∈ subs ∧ d.id.val ≠ x) := by
  rcases ha with ⟨r, hr, -, rfl⟩ | ⟨hnone, id, hid, rfl⟩
  · rw [hr.into.write_eq_map hids] at hd
    obtain ⟨e, he, rfl⟩ := List.mem_map.mp hd
    by_cases hsame : e.id = r.sub.id
    · rw [if_pos hsame]
      exact .inl ⟨hr.id, rfl, rfl, .inl ⟨r.sub, hr.into.mem, rfl, rfl⟩⟩
    · rw [if_neg hsame]
      exact .inr ⟨he, fun hx => hsame (Subtype.ext (hx.trans hr.id.symm))⟩
  · rcases List.mem_append.mp hd with hd | hd
    · exact .inr ⟨hd, hnone d hd⟩
    · obtain rfl := List.mem_singleton.mp hd
      exact .inl ⟨hid, rfl, rfl, .inr ⟨hnone, rfl⟩⟩

/-- An ID whose record is online is not admitted. -/
theorem not_online_of_admitted {subs subs' : List Subscriber} {fd : ℕ} {x : Bytes} {r : SubRef}
    (h : Admitted subs fd x subs') (hr : RecordOf subs x r) : r.sub.online ≠ true := by
  intro hon
  rcases h with ⟨r', hr', hoff, -⟩ | ⟨hnone, -⟩
  · rw [hr.eq hr', hoff] at hon
    cases hon
  · exact hnone _ hr.into.mem hr.id

private theorem sendShutdownToIntruder_eq (sv : Server) (fd : ℕ) :
    ∃ sv', sv.sendShutdownToIntruder fd = (sv', [.send fd [shutdownIntruder, 0, 0, 0, 0]]) ∧
      sv'.subs = sv.subs ∧ sv'.svFds = sv.svFds := by
  have hframe : frame ((Memory.store (fun _ => 0) 0 [shutdownIntruder]).store 1 (le32 0)) =
      [shutdownIntruder, 0, 0, 0, 0] := by decide +kernel
  refine ⟨{ sv with buff := (Memory.store (fun _ => 0) 0 [shutdownIntruder]).store 1 (le32 0) },
    ?_, rfl, rfl⟩
  rw [Server.sendShutdownToIntruder, show sv.clearBuffer.buff = fun _ => 0 from rfl, hframe]

theorem checkAndAddNewSub_cases (sv : Server) (fd : ℕ) {x : Bytes}
    (hx : sv.payloadString = .ok x) (hz : 0 ∉ x) :
    (∃ r line, sv.checkAndAddNewSub fd = .ok (sv, none, [.print line]) ∧
      RecordOf sv.subs x r ∧ r.sub.online = true) ∨
    (∃ subs', sv.checkAndAddNewSub fd = .ok ({ sv with subs := subs' }, some x, []) ∧
      Admitted sv.subs fd x subs') ∨
    (sv.checkAndAddNewSub fd = .error .outsideId ∧ ¬ x.length < maxId ∧
      ∀ d ∈ sv.subs, d.id.val ≠ x) := by
  rcases admission_cases fd x sv.subs with ⟨r, hr, hon, ha⟩ | ⟨r, hr, hon, ha⟩ | ⟨hnone, ha⟩
  · right
    left
    refine ⟨_, ?_, .inl ⟨r, hr, hon, rfl⟩⟩
    simp [Server.checkAndAddNewSub, hx, ha]
  · left
    refine ⟨r, alreadyConnectedLine x, ?_, hr, hon⟩
    simp only [Server.checkAndAddNewSub, hx, ok_bind, ha]
  · right
    by_cases hlen : x.length < maxId
    · left
      refine ⟨_, ?_, .inr ⟨hnone, ⟨x, hlen, hz⟩, rfl, rfl⟩⟩
      simp [Server.checkAndAddNewSub, hx, ha, hlen, hz]
    · right
      exact ⟨by simp [Server.checkAndAddNewSub, hx, ha, hlen], hlen, hnone⟩

/-- A connection is refused without a trace in the globals, or it is admitted. -/
theorem acceptBranch_cases (sv : Server) (fd : ℕ) (peer : SockAddrIn) (p : Packet)
    (hi : sv.svFds.Initial) :
    (∃ e, sv.acceptBranch fd peer p = .error e ∧ e.isDie = false ∧ ¬ CanConnect sv p) ∨
    (∃ r sv' line, sv.acceptBranch fd peer p =
        .ok (sv', none, [.print line, .send fd [shutdownIntruder, 0, 0, 0, 0]]) ∧
      RecordOf sv.subs p.text r ∧ r.sub.online = true ∧
      sv'.subs = sv.subs ∧ sv'.svFds = sv.svFds) ∨
    (∃ sv' line, sv.acceptBranch fd peer p = .ok (sv', some p.text, [.print line]) ∧
      sv.svFds.count < backlogMax ∧ Admitted sv.subs fd p.text sv'.subs ∧
      sv'.svFds = { sv.svFds with entries := sv.svFds.entries ++ [⟨fd, pollin⟩] }) := by
  by_cases hb : p.Buffered
  · have hrecv := recvTcpPacket_of_buffered sv.clearBuffer hb
    have hret : ¬ (p.bytes.length : ℤ) < 0 := by omega
    rcases payloadString_of_cleared sv hb with hx | ⟨hx, hlong⟩
    · have hz := zero_notMem_untilNul p.payload
      rcases checkAndAddNewSub_cases (sv.clearBuffer.holding p) fd hx hz with
        ⟨r, line, hc, hr, hon⟩ | ⟨subs', hc, hadm⟩ | ⟨hc, hlong, -⟩
      · right
        left
        obtain ⟨sv', hs, hsubs, hfds⟩ := sendShutdownToIntruder_eq (sv.clearBuffer.holding p) fd
        refine ⟨r, sv', line, ?_, hr, hon, hsubs, hfds⟩
        simp [Server.acceptBranch, hrecv, hret, hc, hs]
      · by_cases hroom : sv.svFds.count < backlogMax
        · right
          right
          have hadd := addNewPollfdStruc_of_room hi hroom fd
          refine ⟨⟨(sv.clearBuffer.holding p).buff, subs',
            { sv.svFds with entries := sv.svFds.entries ++ [⟨fd, pollin⟩] }⟩,
            newClientLine p.text peer, ?_, hroom, hadm, rfl⟩
          simp [Server.acceptBranch, hrecv, hret, hc, hadd]
        · left
          have hadd := addNewPollfdStruc_of_full hi hroom fd
          refine ⟨.outsidePollBlock, ?_, rfl, ?_⟩
          · simp [Server.acceptBranch, hrecv, hret, hc, hadd]
          · intro hcan
            rcases hcan.room with hlt | ⟨r, hr, hon⟩
            · exact hroom hlt
            · exact not_online_of_admitted hadm hr hon
      · left
        refine ⟨.outsideId, ?_, rfl, fun hcan => hlong hcan.short⟩
        simp [Server.acceptBranch, hrecv, hret, hc]
    · left
      refine ⟨.unterminatedString, ?_, rfl, fun hcan => absurd hcan.short (by omega)⟩
      simp [Server.acceptBranch, hrecv, hret, Server.checkAndAddNewSub, hx]
  · left
    refine ⟨.outsideBuff, ?_, rfl, fun hcan => hb hcan.buffered⟩
    simp [Server.acceptBranch, recvTcpPacket_of_not_buffered sv.clearBuffer hb]

/-- What a request does to the record it is resolved to. -/
def actOn (action : UInt8) (topic : Bytes) (r : Subscriber) : Subscriber :=
  if action = subscribeAction then { r with topics := r.topics ++ [topic] }
  else if action = unsubscribeAction then { r with topics := r.topics.erase topic }
  else if action = shutdownClose then { r with online := false }
  else r

@[simp] theorem actOn_id (action : UInt8) (topic : Bytes) (r : Subscriber) :
    (actOn action topic r).id = r.id := by
  simp only [actOn]
  split_ifs <;> rfl

@[simp] theorem actOn_fd (action : UInt8) (topic : Bytes) (r : Subscriber) :
    (actOn action topic r).fd = r.fd := by
  simp only [actOn]
  split_ifs <;> rfl

theorem actOn_online {action : UInt8} (h : action ≠ shutdownClose) (topic : Bytes)
    (r : Subscriber) : (actOn action topic r).online = r.online := by
  simp only [actOn, h, ↓reduceIte]
  split_ifs <;> rfl

theorem actOn_shutdown (topic : Bytes) (r : Subscriber) :
    actOn shutdownClose topic r = { r with online := false } := by
  simp [actOn, shutdownClose, subscribeAction, unsubscribeAction]

/-- A packet with a topic carries it with its terminator. -/
def Terminated (p : Packet) : Prop :=
  (p.action = subscribeAction ∨ p.action = unsubscribeAction) → 0 ∈ p.payload

instance (p : Packet) : Decidable (Terminated p) := inferInstanceAs (Decidable (_ → _))

/-- The topic is read from the payload only when it is terminated there. -/
theorem payloadString_cases (sv : Server) {p : Packet} (hb : p.Buffered) :
    (∃ e, (sv.holding p).payloadString = .error e ∧ e.isDie = false ∧ 0 ∉ p.payload) ∨
    ∃ topic, (sv.holding p).payloadString = .ok topic ∧ (0 ∈ p.payload → topic = p.text) := by
  cases ht : (sv.holding p).payloadString with
  | error e =>
    left
    refine ⟨e, rfl, ?_, ?_⟩
    · simp only [Server.payloadString] at ht
      split at ht
      · cases ht
      · cases ht
        rfl
    · intro hz
      rw [payloadString_of_terminated sv hb hz] at ht
      cases ht
  | ok topic =>
    right
    refine ⟨topic, rfl, ?_⟩
    intro hz
    rw [payloadString_of_terminated sv hb hz] at ht
    exact (Except.ok.inj ht).symm

private theorem handleSubscribe_cases (sv : Server) {fd : ℕ} {p : Packet} {r : SubRef}
    (hb : p.Buffered) (hr : getSubscriberByFd sv.subs fd = some r) :
    (∃ e, (sv.holding p).handleSubscribe fd = .error e ∧ e.isDie = false ∧ 0 ∉ p.payload) ∨
    ∃ topic, (sv.holding p).handleSubscribe fd = .ok ({ sv.holding p with
        subs := r.write { r.sub with topics := r.sub.topics ++ [topic] } }, []) ∧
      (0 ∈ p.payload → topic = p.text) := by
  rcases payloadString_cases sv hb with ⟨e, he, hdie, hz⟩ | ⟨topic, ht, htext⟩
  · left
    refine ⟨e, ?_, hdie, hz⟩
    simp [Server.handleSubscribe, hr, he]
  · right
    refine ⟨topic, ?_, htext⟩
    simp [Server.handleSubscribe, hr, ht]

private theorem handleUnsubscribe_cases (sv : Server) {fd : ℕ} {p : Packet} {r : SubRef}
    (hb : p.Buffered) (hr : getSubscriberByFd sv.subs fd = some r) :
    (∃ e, (sv.holding p).handleUnsubscribe fd = .error e ∧ e.isDie = false ∧ 0 ∉ p.payload) ∨
    ∃ topic, (0 ∈ p.payload → topic = p.text) ∧
      ((topic ∉ r.sub.topics ∧ (sv.holding p).handleUnsubscribe fd =
          .error (.die "Error: Subscriber is not subbed to this topic!\n")) ∨
        (topic ∈ r.sub.topics ∧ (sv.holding p).handleUnsubscribe fd = .ok ({ sv.holding p with
          subs := r.write { r.sub with topics := r.sub.topics.erase topic } }, []))) := by
  rcases payloadString_cases sv hb with ⟨e, he, hdie, hz⟩ | ⟨topic, ht, htext⟩
  · left
    refine ⟨e, ?_, hdie, hz⟩
    simp [Server.handleUnsubscribe, hr, he]
  · right
    refine ⟨topic, htext, ?_⟩
    by_cases hmem : topic ∈ r.sub.topics
    · right
      refine ⟨hmem, ?_⟩
      simp [Server.handleUnsubscribe, hr, ht, hmem]
    · left
      refine ⟨hmem, ?_⟩
      simp [Server.handleUnsubscribe, hr, ht, hmem]

private theorem handleShutdownSub_eq {sv : Server} {fd idx : ℕ} {r : SubRef}
    (hr : getSubscriberByFd sv.subs fd = some r)
    (hidx : sv.svFds.getPollStrucByFd fd = some idx) :
    sv.handleShutdownSub fd = .ok ({ sv with
        subs := r.write { r.sub with online := false }, svFds := sv.svFds.removeAt idx },
      [.shutdown fd, .close fd, .print (disconnectedLine r.sub.id)]) := by
  obtain ⟨-, hfd, -⟩ := getSubscriberByFd_eq_some.mp hr
  simp [Server.handleShutdownSub, hr, hidx, hfd]

/-- A packet that fits is handled by its action. -/
theorem parseTcpClientMessage_of_buffered (sv : Server) (fd : ℕ) {p : Packet} (hb : p.Buffered) :
    sv.parseTcpClientMessage fd p =
      if p.action = subscribeAction then (sv.holding p).handleSubscribe fd
      else if p.action = unsubscribeAction then (sv.holding p).handleUnsubscribe fd
      else if p.action = shutdownClose then (sv.holding p).handleShutdownSub fd
      else .ok (sv.holding p, []) := by
  have hret : ¬ (p.bytes.length : ℤ) < 0 := by omega
  simp only [Server.parseTcpClientMessage, recvTcpPacket_of_buffered sv hb, ok_bind, hret,
    ↓reduceIte]
  rfl

/-- A request acts on the first record with its descriptor, or ends the server because that
record does not hold the pattern. -/
theorem parseTcpClientMessage_cases (sv : Server) {fd idx : ℕ} (p : Packet) {r : SubRef}
    (hr : getSubscriberByFd sv.subs fd = some r)
    (hidx : sv.svFds.getPollStrucByFd fd = some idx) :
    (∃ e, sv.parseTcpClientMessage fd p = .error e ∧ e.isDie = false ∧
      ¬ (p.Buffered ∧ Terminated p)) ∨
    (∃ topic, sv.parseTcpClientMessage fd p =
        .error (.die "Error: Subscriber is not subbed to this topic!\n") ∧
      p.action = unsubscribeAction ∧ (0 ∈ p.payload → topic = p.text) ∧ topic ∉ r.sub.topics) ∨
    (∃ topic sv' effects, sv.parseTcpClientMessage fd p = .ok (sv', effects) ∧
      (0 ∈ p.payload → topic = p.text) ∧
      (p.action = unsubscribeAction → topic ∈ r.sub.topics) ∧
      sv'.subs = r.write (actOn p.action topic r.sub) ∧
      sv'.svFds = (if p.action = shutdownClose then sv.svFds.removeAt idx else sv.svFds) ∧
      (p.action = shutdownClose → ∃ line, effects = [.shutdown fd, .close fd, .print line]) ∧
      (p.action ≠ shutdownClose → effects = [])) := by
  by_cases hb : p.Buffered
  · rw [parseTcpClientMessage_of_buffered sv fd hb]
    by_cases hsub : p.action = subscribeAction
    · have hun : p.action ≠ unsubscribeAction := by rw [hsub]; decide
      have hsd : p.action ≠ shutdownClose := by rw [hsub]; decide
      rw [if_pos hsub]
      rcases handleSubscribe_cases sv hb hr with ⟨e, he, hdie, hz⟩ | ⟨topic, ht, htext⟩
      · exact .inl ⟨e, he, hdie, fun h => hz (h.2 (.inl hsub))⟩
      · right
        right
        refine ⟨topic, _, [], ht, htext, fun h => absurd h hun, ?_, (if_neg hsd).symm,
          fun h => absurd h hsd, fun _ => rfl⟩
        rw [actOn, if_pos hsub]
    · rw [if_neg hsub]
      by_cases hun : p.action = unsubscribeAction
      · have hsd : p.action ≠ shutdownClose := by rw [hun]; decide
        rw [if_pos hun]
        rcases handleUnsubscribe_cases sv hb hr with
          ⟨e, he, hdie, hz⟩ | ⟨topic, htext, ⟨hmem, ht⟩ | ⟨hmem, ht⟩⟩
        · exact .inl ⟨e, he, hdie, fun h => hz (h.2 (.inr hun))⟩
        · exact .inr (.inl ⟨topic, ht, hun, htext, hmem⟩)
        · right
          right
          refine ⟨topic, _, [], ht, htext, fun _ => hmem, ?_, (if_neg hsd).symm,
            fun h => absurd h hsd, fun _ => rfl⟩
          rw [actOn, if_neg hsub, if_pos hun]
      · rw [if_neg hun]
        right
        right
        by_cases hsd : p.action = shutdownClose
        · rw [if_pos hsd]
          have hdone := @handleShutdownSub_eq (sv.holding p) fd idx r hr hidx
          refine ⟨p.text, _, _, hdone, fun _ => rfl,
            fun h => absurd h hun, ?_, (if_pos hsd).symm, fun _ => ⟨_, rfl⟩,
            fun h => absurd hsd h⟩
          rw [hsd, actOn_shutdown]
        · rw [if_neg hsd]
          refine ⟨p.text, sv.holding p, [], rfl, fun _ => rfl, fun h => absurd h hun, ?_,
            (if_neg hsd).symm, fun h => absurd h hsd, fun _ => rfl⟩
          rw [actOn, if_neg hsub, if_neg hun, if_neg hsd]
          exact (getSubscriberByFd_eq_some.mp hr).1
  · left
    refine ⟨.outsideBuff, ?_, rfl, fun h => hb h.1⟩
    simp [Server.parseTcpClientMessage, recvTcpPacket_of_not_buffered sv hb]

section

variable {sv sv' : Server} {fd : ℕ} {effects : List Effect}

private theorem buff_of_subscribe (h : sv.handleSubscribe fd = .ok (sv', effects)) :
    sv'.buff = sv.buff := by
  rw [Server.handleSubscribe] at h
  split at h
  · cases h
  · obtain ⟨topic, -, h⟩ := bind_eq_ok.mp h
    cases h
    rfl

private theorem buff_of_unsubscribe (h : sv.handleUnsubscribe fd = .ok (sv', effects)) :
    sv'.buff = sv.buff := by
  rw [Server.handleUnsubscribe] at h
  split at h
  · cases h
  · obtain ⟨topic, -, h⟩ := bind_eq_ok.mp h
    split_ifs at h
    cases h
    rfl

private theorem buff_of_shutdown (h : sv.handleShutdownSub fd = .ok (sv', effects)) :
    sv'.buff = sv.buff := by
  rw [Server.handleShutdownSub] at h
  split at h
  · cases h
  · split at h
    · cases h
    · cases h
      rfl

/-- A handler leaves its packet in the buffer. -/
theorem buff_of_parse {p : Packet} (h : sv.parseTcpClientMessage fd p = .ok (sv', effects)) :
    sv'.buff = sv.buff.store 0 p.bytes := by
  by_cases hb : p.Buffered
  · rw [parseTcpClientMessage_of_buffered sv fd hb] at h
    split_ifs at h
    · exact buff_of_subscribe h
    · exact buff_of_unsubscribe h
    · exact buff_of_shutdown h
    · cases h
      rfl
  · rw [Server.parseTcpClientMessage, recvTcpPacket_of_not_buffered sv hb] at h
    cases h

end

def datagramType (data : Bytes) : UInt8 := data.getD 50 0

def datagramTopic (data : Bytes) : Bytes := untilNul (data.take 50)

/-- What `recvfrom` leaves in a cleared buffer. -/
def received (data : Bytes) : Memory := Memory.store (fun _ => 0) 0 (data.take maxUdpPacketLen)

/-- The pattern is well formed and matches. -/
def matching (topic pattern : Bytes) : Bool := (matchesTopic topic pattern).toOption.getD false

/-- The subscriber is online and holds a matching pattern. -/
def isRecipient (topic : Bytes) (sub : Subscriber) : Bool :=
  sub.topics.any (matching topic) && sub.online

/-- The patterns of a record that are tried: the scan stops at the first one that matches. -/
def tried (topic : Bytes) : List Bytes → List Bytes
  | [] => []
  | p :: topics => if matching topic p then [p] else p :: tried topic topics

theorem subIsInteresedInTopic_cases (topic : Bytes) (topics : List Bytes) :
    (∃ e, subIsInteresedInTopic topic topics = .error (.regexError e) ∧
      ∃ p ∈ tried topic topics, (matchesTopic topic p).toBool = false) ∨
    subIsInteresedInTopic topic topics = .ok (topics.any (matching topic)) := by
  induction topics with
  | nil => exact .inr rfl
  | cons p topics ih =>
    cases hm : matchesTopic topic p with
    | error e =>
      left
      refine ⟨e, by simp only [subIsInteresedInTopic, hm], p, ?_, ?_⟩
      · rw [tried]
        split_ifs
        · exact List.mem_cons_self
        · exact List.mem_cons_self
      · rw [hm]
        rfl
    | ok b =>
      cases b with
      | true =>
        right
        simp only [subIsInteresedInTopic, hm, List.any_cons, matching, Except.toOption,
          Option.getD_some, Bool.true_or]
      | false =>
        rcases ih with ⟨e, he, q, hq, hc⟩ | hok
        · left
          have hno : ¬ matching topic p = true := by
            rw [matching, hm]
            exact Bool.false_ne_true
          refine ⟨e, by simp only [subIsInteresedInTopic, hm, he], q, ?_, hc⟩
          rw [tried, if_neg hno]
          exact List.mem_cons_of_mem _ hq
        · right
          simp only [subIsInteresedInTopic, hm, hok, List.any_cons, matching, Except.toOption,
            Option.getD_some, Bool.false_or]

theorem getSubsByTopic_cases (topic : Bytes) (subs : List Subscriber) :
    (∃ e, getSubsByTopic topic subs = .error (.regexError e) ∧
      ∃ sub ∈ subs, ∃ p ∈ tried topic sub.topics, (matchesTopic topic p).toBool = false) ∨
    getSubsByTopic topic subs = .ok (subs.filter (isRecipient topic)) := by
  induction subs with
  | nil => exact .inr rfl
  | cons sub subs ih =>
    rcases subIsInteresedInTopic_cases topic sub.topics with ⟨e, he, p, hp, hc⟩ | hok
    · left
      exact ⟨e, by simp only [getSubsByTopic, he, error_bind], sub, List.mem_cons_self, p, hp, hc⟩
    · rcases ih with ⟨e, he, s, hs, hc⟩ | hrest
      · left
        exact ⟨e, by simp only [getSubsByTopic, hok, he, ok_bind, error_bind], s,
          List.mem_cons_of_mem _ hs, hc⟩
      · right
        simp only [getSubsByTopic, hok, hrest, ok_bind, List.filter_cons, isRecipient]
        rfl

theorem received_front (data : Bytes) :
    untilNul ((received data).read 0 50) = datagramTopic data ∧
      received data 50 = datagramType data := by
  constructor
  · rw [received, Memory.read_store_zero, untilNul_append_replicate, List.take_take]
    rfl
  · simp [received, Memory.store, datagramType, List.getD_eq_getElem?_getD, maxUdpPacketLen]

/-- The notification of a datagram carries its topic. -/
theorem topic_of_notification {data : Bytes} {heap packet : Memory} {src : SockAddrIn}
    (h : buildNotification (received data) heap src = .ok packet) :
    readCStr (packet.read topicOffset maxTopic) = some (datagramTopic data) := by
  rw [read_topic_notification h, readCStr, if_pos (by simp)]
  have hcut := untilNul_append_replicate ((received data).read 0 50) 1
  rw [List.replicate_one] at hcut
  rw [hcut, (received_front data).1]

/-- The scan for a topic meets no malformed pattern. -/
def Scannable (topic : Bytes) (subs : List Subscriber) : Prop :=
  ∀ sub ∈ subs, ∀ p ∈ tried topic sub.topics, (matchesTopic topic p).toBool = true

instance (topic : Bytes) (subs : List Subscriber) : Decidable (Scannable topic subs) := by
  unfold Scannable; infer_instance

/-- A datagram of a known type is sent to the recipients among the records, unless the scan
meets a malformed pattern. -/
theorem udpBranch_cases (sv : Server) (src : SockAddrIn) (data : Bytes) (heap : Memory) :
    (∃ e, sv.udpBranch src data heap = .error e ∧ e.isDie = false ∧
      ¬ ((copyLen (datagramType data)).isSome ∧ Scannable (datagramTopic data) sv.subs)) ∨
    (∃ sv' packet, sv.udpBranch src data heap =
        .ok (sv', (sv.subs.filter (isRecipient (datagramTopic data))).map
          (fun sub => .send sub.fd (frame packet))) ∧
      sv'.subs = sv.subs ∧ sv'.svFds = sv.svFds ∧
      buildNotification (received data) heap src = .ok packet) := by
  obtain ⟨-, htype⟩ := received_front data
  have hret : ¬ (((data.take maxUdpPacketLen).length : ℤ) < 0 ∨
      ((data.take maxUdpPacketLen).length : ℤ) > maxUdpPacketLen) := by
    rw [List.length_take]
    omega
  have hbranch : sv.udpBranch src data heap =
      Server.parseUdpPacket { sv with buff := received data } src heap := by
    rw [Server.udpBranch]
    exact if_neg hret
  rw [hbranch, Server.parseUdpPacket]
  cases hlen : copyLen (datagramType data) with
  | none =>
    left
    refine ⟨.unassignedLength, ?_, rfl, fun h => by simp at h⟩
    simp [buildNotification, htype, hlen]
  | some len =>
    have hknown : (copyLen (received data 50)).isSome := by rw [htype, hlen]; rfl
    obtain ⟨packet, hbuild⟩ := buildNotification_ok heap src hknown
    have hstr := topic_of_notification hbuild
    rcases getSubsByTopic_cases (datagramTopic data) sv.subs with ⟨e, he, s, hs, p, hp, hc⟩ | hok
    · left
      refine ⟨.regexError e, ?_, rfl, ?_⟩
      · simp only [hbuild, ok_bind, sendPacketToSubscribers, hstr, he, error_bind]
      · intro h
        have hscan := h.2 s hs p hp
        rw [hc] at hscan
        cases hscan
    · right
      refine ⟨{ sv with buff := received data }, packet, ?_, rfl, rfl, hbuild⟩
      simp only [hbuild, ok_bind, sendPacketToSubscribers, hstr, hok]

end MessageBroker.HandlerOutcomes
