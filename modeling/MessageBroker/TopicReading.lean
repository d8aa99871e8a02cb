import MessageBroker.ServicePass

/-!
# The topic of a request

Both handlers of a topic read it as a C string from `buff`, whatever length the header declares.
Behind a payload without a terminator the string goes on with what the earlier packets of the pass
have left there.
-/
namespace MessageBroker.TopicReading
open ByteStrings WireFormat ServerStops PollArray SubscriberRecords ServerHandlers HandlerOutcomes
open ServerRuns TransitionRuns ServicePass

/-- `payload->topic` in `handle_subscribe` and `handle_unsubscribe`. -/
def topicRead (sv : Server) (p : Packet) : Except Stop Bytes := (sv.holding p).payloadString

/-- What the packets of a pass leave in the buffer that was cleared in front of it. -/
def leftover (earlier : List Packet) : Memory :=
  earlier.foldl (fun m q => m.store 0 q.bytes) (fun _ => 0)

/-- The turns of a pass: `earlier` are the packets that were handled in front of index `i`. -/
inductive During (sv : Server) (revents : List ℕ) (unread : ℕ → Bytes) :
    ℕ → List Packet → Pass → Prop
  | start : During sv revents unread 3 [] (beginPass sv revents unread)
  | notReady {i : ℕ} {earlier : List Packet} {st : Pass} (h : During sv revents unread i earlier st)
      (bound : i < st.server.svFds.count) (flag : ¬ st.revents.getD i 0 &&& pollin ≠ 0) :
      During sv revents unread (i + 1) earlier st
  | served {i : ℕ} {earlier : List Packet} {st st' : Pass} {p : Packet} {rest : Bytes}
      (h : During sv revents unread i earlier st) (bound : i < st.server.svFds.count)
      (flag : st.revents.getD i 0 &&& pollin ≠ 0)
      (front : frontPacket (st.unread (st.server.svFds.entries.getD i default).fd) = some (p, rest))
      (serve : st.serve (st.server.svFds.entries.getD i default).fd = .ok st') :
      During sv revents unread (i + 1) (earlier ++ [p]) st'

/-- The payload has a terminator, or the byte behind it is zero and still in the buffer. -/
def EndsInPlace (earlier : List Packet) (p : Packet) : Prop :=
  0 ∈ p.payload ∨
    p.payload.length < maxLen - sizeofTcpHdr ∧ leftover earlier p.bytes.length = 0

instance (earlier : List Packet) (p : Packet) : Decidable (EndsInPlace earlier p) :=
  inferInstanceAs (Decidable (_ ∨ _))

/-- In two passes the packet is read as its own payload, and so as the same topic. -/
structure OwnTopic (sv₁ sv₂ : Server) (p : Packet) : Prop where
  first : topicRead sv₁ p = .ok p.text
  second : topicRead sv₂ p = .ok p.text
  same : topicRead sv₁ p = topicRead sv₂ p

section

variable {sv : Server} {fd : ℕ} {p : Packet} {r : SubRef}

/-- SUBSCRIBE appends it. -/
theorem parse_subscribe (hb : p.Buffered) (hr : getSubscriberByFd sv.subs fd = some r)
    (haction : p.action = subscribeAction) : sv.parseTcpClientMessage fd p =
      topicRead sv p >>= fun topic => .ok ({ sv.holding p with
        subs := r.write { r.sub with topics := r.sub.topics ++ [topic] } }, []) := by
  rw [parseTcpClientMessage_of_buffered sv fd hb, if_pos haction, Server.handleSubscribe,
    holding_subs, hr]
  rfl

/-- UNSUBSCRIBE looks for it and removes it. -/
theorem parse_unsubscribe (hb : p.Buffered) (hr : getSubscriberByFd sv.subs fd = some r)
    (haction : p.action = unsubscribeAction) : sv.parseTcpClientMessage fd p =
      topicRead sv p >>= fun topic =>
        if topic ∈ r.sub.topics then .ok ({ sv.holding p with
          subs := r.write { r.sub with topics := r.sub.topics.erase topic } }, [])
        else .error (.die "Error: Subscriber is not subbed to this topic!\n") := by
  have hother : p.action ≠ subscribeAction := by
    rw [haction]
    decide
  rw [parseTcpClientMessage_of_buffered sv fd hb, if_neg hother, if_pos haction,
    Server.handleUnsubscribe, holding_subs, hr]
  rfl

end

private theorem payloadString_eq_ok (sv : Server) (t : Bytes) : sv.payloadString = .ok t ↔
    readCStr (sv.buff.read sizeofTcpHdr (maxLen - sizeofTcpHdr)) = some t := by
  rw [Server.payloadString]
  cases readCStr (sv.buff.read sizeofTcpHdr (maxLen - sizeofTcpHdr)) with
  | some s => simp
  | none => simp

/-- The string behind the header is the payload's own exactly if it ends there. -/
theorem topicRead_iff (sv : Server) {p : Packet} (hb : p.Buffered) :
    topicRead sv p = .ok p.text ↔ 0 ∈ p.payload ∨
      p.payload.length < maxLen - sizeofTcpHdr ∧ sv.buff p.bytes.length = 0 := by
  by_cases hz : 0 ∈ p.payload
  · exact iff_of_true (payloadString_of_terminated sv hb hz) (.inl hz)
  · obtain ⟨k, hk⟩ := p.read_store_bytes sv.buff hb
    have hlen := congrArg List.length hk
    rw [List.length_append, Memory.length_read, Memory.length_read] at hlen
    rw [topicRead, payloadString_eq_ok, holding_buff, hk, Packet.text, untilNul_of_notMem hz,
      readCStr_append_iff hz, or_iff_right hz, hlen]
    cases k with
    | zero =>
      refine iff_of_false ?_ (fun h => absurd h.1 (Nat.lt_irrefl _))
      rintro ⟨more, hmore⟩
      cases hmore
    | succ k =>
      have hfirst : sv.buff.read p.bytes.length (k + 1) =
          sv.buff p.bytes.length :: sv.buff.read (p.bytes.length + 1) k := by
        rw [Nat.add_comm, Memory.read_add]
        rfl
      rw [hfirst, and_iff_right (Nat.lt_add_of_pos_right (Nat.succ_pos k))]
      constructor
      · rintro ⟨more, hmore⟩
        exact (List.cons.inj hmore).1
      · intro hzero
        exact ⟨_, congrArg (· :: _) hzero⟩

variable {sv : Server} {revents : List ℕ} {unread : ℕ → Bytes} {i : ℕ} {earlier : List Packet}
  {st : Pass}

theorem During.buff (h : During sv revents unread i earlier st) :
    st.server.buff = leftover earlier := by
  induction h with
  | start => rfl
  | notReady h bound flag ih => exact ih
  | @served i earlier st st' p rest h bound flag front serve ih =>
    rw [Pass.serve, front] at serve
    obtain ⟨⟨server, effects⟩, hparse, hst⟩ := bind_eq_ok.mp serve
    cases hst
    have hok : st.server.parseTcpClientMessage (st.server.svFds.entries.getD i default).fd p =
        .ok (server, effects) := by
      cases hp : st.server.parseTcpClientMessage
          (st.server.svFds.entries.getD i default).fd p with
      | ok r =>
        rw [hp] at hparse
        cases hparse
        rfl
      | error e =>
        rw [hp] at hparse
        cases hparse
    rw [leftover, List.foldl_append, ← leftover, ← ih]
    exact buff_of_parse hok

/-- The pass ends after some of its turns. -/
theorem During.loop {fuel : ℕ} {st' : Pass} (h : During sv revents unread i earlier st)
    (hloop : st.loop fuel i = .ok st') :
    ∃ j later, During sv revents unread j (earlier ++ later) st' := by
  induction fuel generalizing i earlier st with
  | zero => cases hloop
  | succ fuel ih =>
    rw [Pass.loop] at hloop
    split_ifs at hloop with hlt
    · obtain ⟨st₁, hvisit, hrest⟩ := bind_eq_ok.mp hloop
      rw [Pass.visit] at hvisit
      split_ifs at hvisit with hready
      · have hserve := hvisit
        rw [Pass.serve] at hvisit
        split at hvisit
        · cases hvisit
        · rename_i p rest hfront
          obtain ⟨j, later, hduring⟩ := ih (h.served hlt hready hfront hserve) hrest
          refine ⟨j, p :: later, ?_⟩
          rwa [List.append_assoc] at hduring
      · cases hvisit
        exact ih (h.notReady hlt hready) hrest
    · cases hloop
      exact ⟨i, [], (List.append_nil earlier).symm ▸ h⟩

private theorem topicRead_during_iff (h : During sv revents unread i earlier st) {p : Packet}
    (hb : p.Buffered) : topicRead st.server p = .ok p.text ↔ EndsInPlace earlier p := by
  rw [topicRead_iff st.server hb, h.buff]
  rfl

/-- Whatever was handled earlier in either pass, the topic is the packet's own exactly if its end
is in place. -/
theorem ownTopic_iff {sv₁ sv₂ : Server} {revents₁ revents₂ : List ℕ} {unread₁ unread₂ : ℕ → Bytes}
    {i₁ i₂ : ℕ} {earlier₁ earlier₂ : List Packet} {st₁ st₂ : Pass}
    (h₁ : During sv₁ revents₁ unread₁ i₁ earlier₁ st₁)
    (h₂ : During sv₂ revents₂ unread₂ i₂ earlier₂ st₂) {p : Packet}
    (hb : p.payload.length ≤ maxLen - sizeofTcpHdr) :
    OwnTopic st₁.server st₂.server p ↔ EndsInPlace earlier₁ p ∧ EndsInPlace earlier₂ p := by
  have hb : p.Buffered := by
    rw [Packet.Buffered, Packet.length_bytes]
    simp only [maxLen, sizeofTcpHdr] at hb ⊢
    omega
  rw [← topicRead_during_iff h₁ hb, ← topicRead_during_iff h₂ hb]
  constructor
  · intro h
    exact ⟨h.first, h.second⟩
  · rintro ⟨hfirst, hsecond⟩
    exact ⟨hfirst, hsecond, hfirst.trans hsecond.symm⟩

/-- Two clients with the descriptors `5` and `6`. -/
def twoClients : Server where
  buff := fun _ => 0
  subs := sampleServer.subs.take 2
  svFds := ⟨sampleServer.svFds.entries.take 5, 64, 512⟩

/-- The topic `x`, without a terminator. -/
def openTopic : Packet := ⟨subscribeAction, ascii "x", by decide⟩

def abcTopic : Packet := stringPacket subscribeAction (ascii "abc") (by decide)

def aTopic : Packet := stringPacket subscribeAction (ascii "a") (by decide)

/-- The second client sends the open topic. -/
def waiting (first : Packet) (fd : ℕ) : Bytes :=
  if fd = 5 then first.bytes else openTopic.bytes

/-- Behind the topic `abc` in one pass, and behind a silent client in the other. -/
theorem ownTopic_iff_behind_abc : ∃ st₁ st₂ : Pass,
    During twoClients [0, 0, 0, 1, 1] (waiting abcTopic) 4 [abcTopic] st₁ ∧
      During twoClients [0, 0, 0, 0, 1] (waiting abcTopic) 4 [] st₂ ∧
        ¬ OwnTopic st₁.server st₂.server openTopic := by
  have hholds : (beginPass twoClients [0, 0, 0, 1, 1] (waiting abcTopic)).Holds
      ([0, 3, 4].map (fun fd => ⟨⟨fd, pollin⟩, 0⟩) ++ ⟨⟨5, pollin⟩, 1⟩ :: [⟨⟨6, pollin⟩, 1⟩]) :=
    ⟨rfl, rfl⟩
  have hpending : Pending (fun _ => abcTopic) (fun _ => [])
      (beginPass twoClients [0, 0, 0, 1, 1] (waiting abcTopic)) 5 :=
    ⟨rfl, by decide, _, rfl, .subscribe rfl⟩
  have hends : TopicsEnd (fun _ => abcTopic) (fun _ => 0) [⟨⟨5, pollin⟩, 1⟩, ⟨⟨6, pollin⟩, 1⟩] :=
    .inr ⟨rfl, by decide⟩
  obtain ⟨st₁, hserve, -⟩ := serve_ok hholds (by decide) hpending rfl hends
  have hfront : frontPacket (waiting abcTopic 5) = some (abcTopic, []) := rfl
  have hstart : During twoClients [0, 0, 0, 1, 1] (waiting abcTopic) 3 []
      (beginPass twoClients [0, 0, 0, 1, 1] (waiting abcTopic)) := .start
  have hserved := hstart.served (by decide) (by decide) hfront hserve
  have hsilent : During twoClients [0, 0, 0, 0, 1] (waiting abcTopic) 4 [] _ :=
    .notReady .start (by decide) (by decide)
  have hnot : ¬ EndsInPlace [abcTopic] openTopic := by decide
  exact ⟨_, _, hserved, hsilent,
    fun h => hnot ((ownTopic_iff hserved hsilent (by decide)).mp h).1⟩

def topicsAfter (first : Packet) : Except PassHalt (List (List Bytes)) :=
  (clientPass twoClients [0, 0, 0, 1, 1] (waiting first)).map
    fun st => st.server.subs.map Subscriber.topics

/-- The second client's topic goes on with the end of the first client's. -/
theorem topic_behind_abc :
    topicsAfter abcTopic = .ok [[ascii "abc"], [ascii "xbc"]] ∧
      topicsAfter aTopic = .ok [[ascii "a"], [ascii "x"]] ∧ openTopic.text = ascii "x" := by
  decide +kernel

end MessageBroker.TopicReading
