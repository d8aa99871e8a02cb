import MessageBroker.BrokenPipes
import MessageBroker.ClientTable
import MessageBroker.PublishSubscribe

/-!
# The server as a publish/subscribe broker

The abstract broker takes the same events: a request counts for the ID with which its
connection was admitted. The server follows it as long as the descriptor of each request
leads to the record of that ID and nothing is sent to a peer that has reset.
-/
namespace MessageBroker.BrokerRefinement
open ByteStrings WireFormat ServerStops PollArray SubscriberRecords Notification
open TopicMatching ServerHandlers HandlerOutcomes ServerRuns TransitionRuns ClientTable
open PublishSubscribe BrokenPipes

/-- A datagram and the descriptors it is to be sent on. -/
structure Delivery where
  src : SockAddrIn
  data : Bytes
  heap : Memory
  places : List ℕ

abbrev ClientBroker := Broker ℕ Bytes Bytes

def brokerStep (b : ClientBroker) : Event → ClientBroker × Option Delivery
  | .connect fd _ p => (b.enter fd p.text, none)
  | .packet _ fd p =>
    (if p.action = subscribeAction then b.revise fd (p.text ::ₘ ·)
      else if p.action = unsubscribeAction then b.revise fd (·.erase p.text)
      else if p.action = shutdownClose then b.leave fd
      else b, none)
  | .datagram src data heap =>
    (b, some ⟨src, data, heap, b.recipients (matching (datagramTopic data))⟩)

/-- The notification of a datagram is sent once on each of its descriptors and nothing else
is sent; beside datagrams only intruders are sent something. -/
def Delivered (effects : List Effect) : Option Delivery → Prop
  | some d => d.places.Nodup ∧ ∃ packet, buildNotification (received d.data) d.heap d.src = .ok packet ∧
      effects.Perm (d.places.map (fun fd => .send fd (frame packet)))
  | none => ∀ e ∈ sends effects, e.2 = [shutdownIntruder, 0, 0, 0, 0]

/-- What accept, the clients and the sizes guarantee. -/
def Legal (s : Sys) (b : ClientBroker) : Event → Prop
  | .connect fd _ p => fd ∉ s.opened ∧ p.Buffered ∧ p.text.length < maxId ∧
      (p.text ∈ b.live.map Prod.snd ∨ b.live.length < 61)
  | .packet _ fd p => fd ∈ b.live.map Prod.fst ∧ p.Buffered ∧ Terminated p ∧
      (p.action = unsubscribeAction → ∀ c ∈ b.live, c.1 = fd → p.text ∈ b.held c.2)
  | .datagram _ _ _ => True

def IsRequest (action : UInt8) : Prop :=
  action = subscribeAction ∨ action = unsubscribeAction ∨ action = shutdownClose

/-- No older record stands between a request and the record of its sender, and a datagram
has a known type and meets no malformed pattern. -/
def Resolved (s : Sys) (b : ClientBroker) : Event → Prop
  | .connect _ _ _ => True
  | .packet _ fd p => IsRequest p.action →
      ∀ c ∈ b.live, c.1 = fd → Unshadowed s.server.subs c.2 fd
  | .datagram _ data _ => (copyLen (datagramType data)).isSome ∧
      Scannable (datagramTopic data) s.server.subs

instance (action : UInt8) : Decidable (IsRequest action) := inferInstanceAs (Decidable (_ ∨ _))

instance (s : Sys) (b : ClientBroker) : (e : Event) → Decidable (Legal s b e)
  | .connect _ _ _ => inferInstanceAs (Decidable (_ ∧ _ ∧ _ ∧ _))
  | .packet _ _ _ => inferInstanceAs (Decidable (_ ∧ _ ∧ _ ∧ (_ → _)))
  | .datagram _ _ _ => isTrue trivial

instance (s : Sys) (b : ClientBroker) : (e : Event) → Decidable (Resolved s b e)
  | .connect _ _ _ => isTrue trivial
  | .packet _ _ _ => inferInstanceAs (Decidable (_ → _))
  | .datagram _ _ _ => inferInstanceAs (Decidable (_ ∧ _))

structure Refines (k : Sockets) (s : Sys) (b : ClientBroker) : Prop where
  inv : SysInvariant k s
  live : b.live = s.live.map (fun c => (c.fd, c.id))
  held : ∀ r ∈ s.server.subs, b.held r.id.val = r.topics
  unknown : ∀ x, (∀ r ∈ s.server.subs, r.id.val ≠ x) → b.held x = 0
  online : ∀ r ∈ s.server.subs, r.online = true → ∃ c ∈ s.live, c.id = r.id.val

theorem refines_start (k : Sockets) : Refines k (start k) Broker.empty where
  inv := sysInvariant_start k
  live := rfl
  held := by simp [start]
  unknown := fun _ _ => rfl
  online := by simp [start]

variable {k : Sockets} {s s' : Sys} {b : ClientBroker}

theorem Refines.places_eq (h : Refines k s b) : b.live.map Prod.fst = s.live.map Connection.fd := by
  simp [h.live]

theorem Refines.clients_eq (h : Refines k s b) : b.live.map Prod.snd = s.live.map Connection.id := by
  simp [h.live]

theorem Refines.mem_live (h : Refines k s b) {c : Connection} (hc : c ∈ s.live) :
    (c.fd, c.id) ∈ b.live := by
  rw [h.live]
  exact List.mem_map_of_mem hc

/-- An online record has a live connection on its descriptor. -/
theorem Refines.live_of_online (h : Refines k s b) {r : Subscriber} (hr : r ∈ s.server.subs)
    (hon : r.online = true) : ∃ c ∈ s.live, c.id = r.id.val ∧ c.fd = r.fd := by
  obtain ⟨c, hc, hid⟩ := h.online r hr hon
  obtain ⟨d, hd, hdid, hfd, -⟩ := h.inv.records c hc
  have hsame : d = r := eq_of_id h.inv.ids hd hr (Subtype.ext (hdid.trans hid))
  exact ⟨c, hc, hid, hsame ▸ hfd.symm⟩

/-- The recipients among the records are the recipients of the abstract broker. -/
theorem Refines.recipients (h : Refines k s b) (topic : Bytes) :
    ((s.server.subs.filter (isRecipient topic)).map Subscriber.fd).Perm
      (b.recipients (matching topic)) := by
  have hrec {r : Subscriber} (hr : r ∈ s.server.subs.filter (isRecipient topic)) :
      r ∈ s.server.subs ∧ r.online = true ∧ ∃ p ∈ r.topics, matching topic p = true := by
    obtain ⟨hmem, hr⟩ := List.mem_filter.mp hr
    rw [isRecipient, Bool.and_eq_true, List.any_eq_true] at hr
    exact ⟨hmem, hr.2, hr.1⟩
  apply (List.perm_ext_iff_of_nodup _ (b.recipients_nodup _)).mpr
  · intro fd
    rw [Broker.mem_recipients]
    constructor
    · intro hfd
      obtain ⟨r, hr, rfl⟩ := List.mem_map.mp hfd
      obtain ⟨hmem, hon, p, hp, hm⟩ := hrec hr
      obtain ⟨c, hc, hid, hcfd⟩ := h.live_of_online hmem hon
      refine ⟨r.id.val, hid ▸ hcfd ▸ h.mem_live hc, p, ?_, hm⟩
      rw [h.held r hmem]
      exact hp
    · rintro ⟨x, hx, p, hp, hm⟩
      rw [h.live] at hx
      obtain ⟨c, hc, he⟩ := List.mem_map.mp hx
      obtain ⟨r, hr, hid, hfd, hon⟩ := h.inv.records c hc
      cases he
      rw [← hid, h.held r hr] at hp
      refine List.mem_map.mpr ⟨r, List.mem_filter.mpr ⟨hr, ?_⟩, hfd⟩
      rw [isRecipient, Bool.and_eq_true, List.any_eq_true]
      exact ⟨⟨p, hp, hm⟩, hon⟩
  · apply List.Nodup.map_on
    · intro r hr d hd hfd
      obtain ⟨hrmem, hron, -⟩ := hrec hr
      obtain ⟨hdmem, hdon, -⟩ := hrec hd
      obtain ⟨c, hc, hcid, hcfd⟩ := h.live_of_online hrmem hron
      obtain ⟨e, he, heid, hefd⟩ := h.live_of_online hdmem hdon
      have hsame : c = e :=
        List.inj_on_of_nodup_map h.inv.liveFds hc he (hcfd.trans (hfd.trans hefd.symm))
      exact eq_of_id h.inv.ids hrmem hdmem (Subtype.ext (hcid.symm.trans (hsame ▸ heid)))
    · exact (List.Nodup.of_map _ h.inv.ids).filter _

/-- A legal event that is resolved does not stop the server. -/
theorem Refines.proceeds (h : Refines k s b) {e : Event} (hl : Legal s b e)
    (hr : Resolved s b e) : ∃ s' effects, step s e = .ok (s', effects) ∧ Outcome k s e s' effects := by
  rcases stepCases h.inv e with ⟨-, hno⟩ | ⟨-, why, -, hwhy⟩ | ⟨-, s', effects, hs, ho⟩
  · cases e with
    | connect fd peer p => exact absurd hl.1 hno
    | packet first fd p =>
      obtain ⟨hfd, -⟩ := hl
      rw [h.places_eq] at hfd
      exact absurd (List.mem_map.mp hfd) hno
    | datagram src data heap => exact absurd trivial hno
  · cases hwhy with
    | connect noDie cannot =>
      obtain ⟨-, hbuf, hshort, hroom⟩ := hl
      refine absurd ⟨hbuf, hshort, ?_⟩ cannot
      rcases hroom with hconn | hlt
      · rw [h.clients_eq] at hconn
        obtain ⟨c, hc, hid⟩ := List.mem_map.mp hconn
        exact .inr (hid ▸ exists_recordOf_live h.inv hc)
      · left
        rw [count_eq h.inv, backlogMax]
        rw [h.live, List.length_map] at hlt
        omega
    | malformed noDie bad => exact absurd ⟨hl.2.1, hl.2.2.1⟩ bad
    | @notSubscribed first fd p r topic found action text absent =>
      obtain ⟨hfd, -, hterm, hheld⟩ := hl
      rw [h.places_eq] at hfd
      obtain ⟨c, hc, rfl⟩ := List.mem_map.mp hfd
      have hclear := hr (.inr (.inl action)) _ (h.mem_live hc) rfl
      have hid := (resolves_iff h.inv hc found).mpr hclear
      have hmem := hheld action _ (h.mem_live hc) rfl
      have hinto := (getSubscriberByFd_eq_some.mp found).1
      rw [← hid, h.held _ hinto.mem, ← text (hterm (.inr action))] at hmem
      exact absurd hmem absent
    | datagram noDie bad => exact absurd hr bad
    | closed mem recipient closed =>
      rw [isRecipient, Bool.and_eq_true] at recipient
      obtain ⟨c, hc, -, hfd⟩ := h.live_of_online mem recipient.2
      exact absurd (hfd ▸ h.inv.liveOpened c hc) closed
  · exact ⟨s', effects, hs, ho⟩

theorem Refines.admitted (h : Refines k s b) {fd : ℕ} {x : Bytes} {server : Server}
    (free : fd ∉ s.opened) (subs : Admitted s.server.subs fd x server.subs)
    (h' : SysInvariant k ⟨server, fd :: s.opened, ⟨s.admitted.length, fd, x⟩ :: s.admitted,
      s.live ++ [⟨s.admitted.length, fd, x⟩]⟩) :
    Refines k ⟨server, fd :: s.opened, ⟨s.admitted.length, fd, x⟩ :: s.admitted,
      s.live ++ [⟨s.admitted.length, fd, x⟩]⟩ (b.enter fd x) := by
  have hfd : fd ∉ b.live.map Prod.fst := by
    rw [h.places_eq]
    intro hmem
    obtain ⟨c, hc, he⟩ := List.mem_map.mp hmem
    exact free (he ▸ h.inv.liveOpened c hc)
  have hx : x ∉ b.live.map Prod.snd := by
    rw [h.clients_eq]
    exact h.inv.id_notMem_of_admitted subs
  refine ⟨h', ?_, ?_, ?_, ?_⟩
  · rw [Broker.live_enter hfd hx, h.live]
    simp
  · intro d hd
    rw [Broker.held_enter]
    rcases mem_cases_of_admitted h.inv.ids subs hd with ⟨hid, -, -, htopics⟩ | ⟨hd, -⟩
    · rcases htopics with ⟨e, he, heid, hetopics⟩ | ⟨hnone, hempty⟩
      · rw [← heid, h.held e he, hetopics]
      · rw [hid, h.unknown x hnone, hempty]
        rfl
    · exact h.held d hd
  · intro y hy
    rw [Broker.held_enter]
    apply h.unknown
    intro d hd hdy
    by_cases hdx : d.id.val = x
    · obtain ⟨e, he, hex, -⟩ := exists_record_of_admitted subs
      exact hy e he (hex.trans (hdx.symm.trans hdy))
    · exact hy d (mem_of_admitted subs hd hdx) hdy
  · intro d hd hon
    rcases mem_cases_of_admitted h.inv.ids subs hd with ⟨hid, -⟩ | ⟨hd, -⟩
    · exact ⟨_, List.mem_append_right _ List.mem_cons_self, hid.symm⟩
    · obtain ⟨c, hc, hcid⟩ := h.online d hd hon
      exact ⟨c, List.mem_append_left _ hc, hcid⟩

/-- A request that changes the topics of the sender's record. -/
theorem Refines.revised (h : Refines k s b) {c : Connection} (hc : c ∈ s.live) {r : SubRef}
    (hinto : r.Into s.server.subs) (hid : r.sub.id.val = c.id) {x : Subscriber}
    (hxid : x.id = r.sub.id) (hxon : x.online = r.sub.online)
    {f : Multiset Bytes → Multiset Bytes} (hf : (x.topics : Multiset Bytes) = f r.sub.topics)
    {server : Server} (subs : server.subs = r.write x)
    (h' : SysInvariant k { s with server := server }) :
    Refines k { s with server := server } (b.revise c.fd f) := by
  have hheld := Broker.held_revise (h.mem_live hc) f
  rw [← hid, h.held r.sub hinto.mem, ← hf, ← hxid] at hheld
  refine ⟨h', ?_, ?_, ?_, ?_⟩
  · rw [Broker.live_revise]
    exact h.live
  · intro d hd
    rw [hheld]
    rcases hinto.mem_write_cases h.inv.ids (subs ▸ hd) with rfl | ⟨hd, hne⟩
    · exact Function.update_self _ _ _
    · rw [Function.update_of_ne (fun he => hne ((Subtype.ext he).trans hxid))]
      exact h.held d hd
  · intro y hy
    have hold := (hinto.forall_id_write hxid y).mp (subs ▸ hy)
    rw [hheld, Function.update_of_ne (hxid ▸ (hold _ hinto.mem).symm)]
    exact h.unknown y hold
  · intro d hd hon
    rcases hinto.mem_write_cases h.inv.ids (subs ▸ hd) with rfl | ⟨hd, -⟩
    · exact hxid ▸ h.online r.sub hinto.mem (hxon.symm.trans hon)
    · exact h.online d hd hon

theorem Refines.request (h : Refines k s b) {first : Bool} {p : Packet} {c : Connection}
    {r : SubRef} {topic : Bytes} {server : Server} (hc : c ∈ s.live)
    (hl : Legal s b (.packet first c.fd p)) (hr : Resolved s b (.packet first c.fd p))
    (found : getSubscriberByFd s.server.subs c.fd = some r) (action : p.action ≠ shutdownClose)
    (text : 0 ∈ p.payload → topic = p.text)
    (subs : server.subs = r.write (actOn p.action topic r.sub))
    (h' : SysInvariant k { s with server := server }) :
    Refines k { s with server := server } (brokerStep b (.packet first c.fd p)).1 := by
  have hinto := (getSubscriberByFd_eq_some.mp found).1
  have hid (hreq : IsRequest p.action) : r.sub.id.val = c.id :=
    (resolves_iff h.inv hc found).mpr (hr hreq _ (h.mem_live hc) rfl)
  have hon := actOn_online action topic r.sub
  by_cases hsub : p.action = subscribeAction
  · rw [brokerStep, if_pos hsub]
    have htopics : ((actOn p.action topic r.sub).topics : Multiset Bytes) =
        p.text ::ₘ (r.sub.topics : Multiset Bytes) := by
      rw [actOn, if_pos hsub, text (hl.2.2.1 (.inl hsub))]
      exact Multiset.coe_eq_coe.mpr (List.perm_append_singleton _ _)
    exact h.revised hc hinto (hid (.inl hsub)) (actOn_id _ _ _) hon htopics subs h'
  · by_cases hun : p.action = unsubscribeAction
    · rw [brokerStep, if_neg hsub, if_pos hun]
      have htopics : ((actOn p.action topic r.sub).topics : Multiset Bytes) =
          (r.sub.topics : Multiset Bytes).erase p.text := by
        rw [actOn, if_neg hsub, if_pos hun, text (hl.2.2.1 (.inr hun)), Multiset.coe_erase]
        -- the two `erase` compare bytes by different instances
        congr!
      exact h.revised hc hinto (hid (.inr (.inl hun))) (actOn_id _ _ _) hon htopics subs h'
    · rw [actOn, if_neg hsub, if_neg hun, if_neg action, SubRef.write, ← hinto] at subs
      rw [brokerStep, if_neg hsub, if_neg hun, if_neg action]
      exact ⟨h', h.live, subs ▸ h.held, subs ▸ h.unknown, subs ▸ h.online⟩

theorem Refines.shutdown (h : Refines k s b) {c : Connection} {before behind : List Connection}
    {r : SubRef} {server : Server} {opened : List ℕ} (live : s.live = before ++ c :: behind)
    (found : getSubscriberByFd s.server.subs c.fd = some r) (hid : r.sub.id.val = c.id)
    (subs : server.subs = r.write { r.sub with online := false })
    (h' : SysInvariant k ⟨server, opened, s.admitted, before ++ behind⟩) :
    Refines k ⟨server, opened, s.admitted, before ++ behind⟩ (b.leave c.fd) := by
  have hinto := (getSubscriberByFd_eq_some.mp found).1
  refine ⟨h', ?_, ?_, ?_, ?_⟩
  · have hgone : s.live.filter (fun d => d.fd ≠ c.fd) = before ++ behind := by
      rw [live]
      exact filter_fd_ne (live ▸ h.inv.liveFds)
    rw [Broker.live_leave, h.live, List.filter_map]
    exact congrArg (List.map (fun d => (d.fd, d.id))) hgone
  · intro d hd
    rw [Broker.held_leave]
    rcases hinto.mem_write_cases h.inv.ids (subs ▸ hd) with rfl | ⟨hd, -⟩
    · exact h.held r.sub hinto.mem
    · exact h.held d hd
  · intro y hy
    exact h.unknown y
      ((hinto.forall_id_write (x := { r.sub with online := false }) rfl y).mp (subs ▸ hy))
  · intro d hd hon
    rcases hinto.mem_write_cases h.inv.ids (subs ▸ hd) with rfl | ⟨hd, hne⟩
    · cases hon
    · obtain ⟨e, he, heid⟩ := h.online d hd hon
      refine ⟨e, ?_, heid⟩
      rw [live] at he
      have hec : e ≠ c := fun hec => hne (Subtype.ext (heid.symm.trans (hec ▸ hid.symm)))
      simpa [hec] using he

private theorem buffered_of_step {first : Bool} {fd : ℕ} {p : Packet} {effects : List Effect}
    (hs : step s (.packet first fd p) = .ok (s', effects)) : p.Buffered := by
  by_contra hb
  have hno (sv : Server) : sv.parseTcpClientMessage fd p = .error .outsideBuff := by
    rw [Server.parseTcpClientMessage, recvTcpPacket_of_not_buffered sv hb]
    rfl
  rw [step] at hs
  split_ifs at hs
  all_goals
    obtain ⟨a, hparse, -⟩ := bind_eq_ok.mp hs
    rw [hno] at hparse
    cases hparse

/-- The request of a live connection that is resolved to its record meets the conditions of the
simulation. -/
theorem Refines.request_allowed (h : Refines k s b) (first : Bool) {p : Packet}
    {c : Connection} {r : SubRef} {topic : Bytes} (hc : c ∈ s.live) (hb : p.Buffered)
    (found : getSubscriberByFd s.server.subs c.fd = some r)
    (text : 0 ∈ p.payload → topic = p.text)
    (held : p.action = unsubscribeAction → topic ∈ r.sub.topics)
    (hreq : IsRequest p.action → Terminated p ∧ Unshadowed s.server.subs c.id c.fd) :
    Legal s b (.packet first c.fd p) ∧ Resolved s b (.packet first c.fd p) := by
  have hlive := h.mem_live hc
  have hterm : Terminated p := by
    intro htopic
    exact (hreq (htopic.imp_right .inl)).1 htopic
  refine ⟨⟨List.mem_map_of_mem hlive, hb, hterm, ?_⟩, ?_⟩
  · rintro hun ⟨fd, x⟩ hx rfl
    obtain rfl := Broker.client_unique hlive hx
    have hid := (resolves_iff h.inv hc found).mpr (hreq (.inr (.inl hun))).2
    have hinto := (getSubscriberByFd_eq_some.mp found).1
    rw [← hid, h.held _ hinto.mem, ← text (hterm (.inr hun))]
    exact held hun
  · rintro haction ⟨fd, x⟩ hx rfl
    obtain rfl := Broker.client_unique hlive hx
    exact (hreq haction).2

/-- The server follows the broker in every step that it survives. -/
theorem Refines.survived (h : Refines k s b) {e : Event} {effects : List Effect}
    (hs : step s e = .ok (s', effects))
    (hreq : ∀ first fd p, e = .packet first fd p → IsRequest p.action →
      Terminated p ∧ ∀ c ∈ s.live, c.fd = fd → Unshadowed s.server.subs c.id fd) :
    Refines k s' (brokerStep b e).1 := by
  have ho := outcome_of_step h.inv hs
  have h' := sysInvariant_outcome h.inv ho
  cases ho with
  | @refused fd _ p r server line free record online subs svFds =>
    obtain ⟨c, hc, hid, -⟩ := h.live_of_online record.into.mem online
    have hconn : p.text ∈ b.live.map Prod.snd := by
      rw [h.clients_eq, ← record.id, ← hid]
      exact List.mem_map_of_mem hc
    rw [brokerStep, Broker.enter_of_connected hconn]
    exact ⟨h', h.live, subs ▸ h.held, subs ▸ h.unknown, subs ▸ h.online⟩
  | admitted line free room subs svFds => exact h.admitted free subs h'
  | @request first p c r topic server live found action text held subs svFds =>
    obtain ⟨hl, hr⟩ := h.request_allowed first live (buffered_of_step hs) found text held
      (fun haction => ⟨(hreq _ _ _ rfl haction).1, (hreq _ _ _ rfl haction).2 c live rfl⟩)
    exact h.request live hl hr found action text subs h'
  | @shutdown first p before behind c r server line live found action subs svFds =>
    have hc : c ∈ s.live := by simp [live]
    have hid := (resolves_iff h.inv hc found).mpr
      ((hreq _ _ _ rfl (.inr (.inr action))).2 c hc rfl)
    rw [brokerStep, action, if_neg (by decide), if_neg (by decide), if_pos rfl]
    exact h.shutdown live found hid subs h'
  | datagram subs svFds built opened =>
    exact ⟨h', h.live, subs ▸ h.held, subs ▸ h.unknown, subs ▸ h.online⟩

theorem Refines.delivered (h : Refines k s b) {e : Event} {effects : List Effect}
    (hs : step s e = .ok (s', effects)) : Delivered effects (brokerStep b e).2 := by
  cases outcome_of_step h.inv hs with
  | refused line free record online subs svFds => simp [brokerStep, Delivered, sends]
  | admitted line free room subs svFds => simp [brokerStep, Delivered, sends]
  | request live found action text held subs svFds => simp [brokerStep, Delivered, sends]
  | shutdown line live found action subs svFds => simp [brokerStep, Delivered, sends]
  | @datagram src data heap packet server subs svFds built opened =>
    refine ⟨b.recipients_nodup _, packet, built, ?_⟩
    have hperm := (h.recipients (datagramTopic data)).map (fun fd => Effect.send fd (frame packet))
    rw [List.map_map] at hperm
    exact hperm

/-- One step of the server follows one step of the broker. -/
theorem refines_step {e : Event} (h : Refines k s b) (hl : Legal s b e) (hr : Resolved s b e) :
    ∃ s' effects, step s e = .ok (s', effects) ∧ Refines k s' (brokerStep b e).1 ∧
      Delivered effects (brokerStep b e).2 := by
  obtain ⟨s', effects, hs, -⟩ := h.proceeds hl hr
  refine ⟨s', effects, hs, h.survived hs ?_, h.delivered hs⟩
  rintro first fd p rfl hreq
  have hterm : Terminated p := hl.2.2.1
  exact ⟨hterm, fun c hc hfd => hfd ▸ hr hreq _ (h.mem_live hc) hfd⟩

def wireBrokerStep (b : ClientBroker) : WireEvent → ClientBroker × Option Delivery
  | .server e => brokerStep b e
  | .reset _ => (b, none)

/-- No peer that is sent something has reset. -/
def Unbroken (w : Wire) (b : ClientBroker) : Event → Prop
  | .connect fd _ p => p.text ∈ b.live.map Prod.snd → fd ∉ w.reset
  | .packet _ _ _ => True
  | .datagram _ data _ => ∀ fd ∈ b.recipients (matching (datagramTopic data)), fd ∉ w.reset

instance (w : Wire) (b : ClientBroker) : (e : Event) → Decidable (Unbroken w b e)
  | .connect _ _ _ => inferInstanceAs (Decidable (_ → _))
  | .packet _ _ _ => isTrue trivial
  | .datagram _ _ _ => inferInstanceAs (Decidable (∀ fd ∈ _, _))

def WireLegal (w : Wire) (b : ClientBroker) : WireEvent → Prop
  | .server e => Legal w.sys b e
  | .reset _ => True

def WireResolved (w : Wire) (b : ClientBroker) : WireEvent → Prop
  | .server e => Resolved w.sys b e ∧ Unbroken w b e
  | .reset _ => True

instance (w : Wire) (b : ClientBroker) : (e : WireEvent) → Decidable (WireLegal w b e)
  | .server e => inferInstanceAs (Decidable (Legal w.sys b e))
  | .reset _ => isTrue trivial

instance (w : Wire) (b : ClientBroker) : (e : WireEvent) → Decidable (WireResolved w b e)
  | .server e => inferInstanceAs (Decidable (Resolved w.sys b e ∧ Unbroken w b e))
  | .reset _ => isTrue trivial

/-- What a step sends, it sends to peers that have not reset. -/
theorem Refines.unbroken {w : Wire} (h : Refines k w.sys b) {e : Event} {effects : List Effect}
    (hs : step w.sys e = .ok (s', effects)) (hu : Unbroken w b e) :
    ∀ q ∈ sends effects, q.1 ∉ w.reset := by
  have hdelivered := h.delivered hs
  intro q hq
  cases outcome_of_step h.inv hs with
  | @refused fd _ p r server line free record online subs svFds =>
    obtain ⟨c, hc, hid, -⟩ := h.live_of_online record.into.mem online
    obtain rfl : q = (fd, [shutdownIntruder, 0, 0, 0, 0]) := by simpa [sends] using hq
    apply hu
    rw [h.clients_eq, ← record.id, ← hid]
    exact List.mem_map_of_mem hc
  | admitted line free room subs svFds => simp [sends] at hq
  | request live found action text held subs svFds => simp [sends] at hq
  | shutdown line live found action subs svFds => simp [sends] at hq
  | @datagram src data heap packet server subs svFds built opened =>
    obtain ⟨-, packet', -, hperm⟩ := hdelivered
    obtain ⟨e, he, hqe⟩ := List.mem_filterMap.mp hq
    obtain ⟨fd, hfd, rfl⟩ := List.mem_map.mp (hperm.subset he)
    obtain rfl : (fd, frame packet') = q := by simpa using hqe
    exact hu fd hfd

/-- The server delivers like the broker in every run in which the descriptor of each request
leads to the record of its sender and nothing is sent to a peer that has reset. -/
theorem broker_refined {events : List WireEvent}
    (h : EachPair wireStep wireBrokerStep (fun w b e => WireLegal w b e ∧ WireResolved w b e)
      (wireStart k) Broker.empty events) :
    ∃ w effects, run wireStep (wireStart k) events = .ok (w, effects) ∧
      List.Forall₂ Delivered effects (follow wireBrokerStep Broker.empty events).2 := by
  have hsim : ∀ w b e, Refines k w.sys b → WireLegal w b e ∧ WireResolved w b e → ∃ w' effects,
      wireStep w e = .ok (w', effects) ∧ Refines k w'.sys (wireBrokerStep b e).1 ∧
        Delivered effects (wireBrokerStep b e).2 := by
    intro w b e hrefines hc
    cases e with
    | reset fd => exact ⟨_, [], rfl, hrefines, by simp [wireBrokerStep, Delivered, sends]⟩
    | server e =>
      obtain ⟨s', effects, hs, h', hd⟩ := refines_step hrefines hc.1 hc.2.1
      exact ⟨_, effects, wireStep_server hs (hrefines.unbroken hs hc.2.2), h', hd⟩
  obtain ⟨w, effects, hr, -, hout⟩ := simulation wireBrokerStep hsim (refines_start k) h
  exact ⟨w, effects, hr, hout⟩

/-- `A` is back on the descriptor that `B` left and reset, after `B` has come back on a new one;
what they held is still there. -/
theorem broker_refined_swapped : ∃ w effects, run wireStep (wireStart sampleSockets)
    [.server (joins 5 'A'), .server (subscribes 5 'p'), .server (joins 6 'B'),
      .server (subscribes 6 'p'), .server (subscribes 6 'p'), .reset 6, .server (leaves 6),
      .server (joins 7 'B'), .server (leaves 5), .server (publishes 'p'), .server (joins 6 'A'),
      .server (unsubscribes 7 'p'), .server (publishes 'p')] = .ok (w, effects) ∧
    List.Forall₂ Delivered effects (follow wireBrokerStep Broker.empty
      [.server (joins 5 'A'), .server (subscribes 5 'p'), .server (joins 6 'B'),
        .server (subscribes 6 'p'), .server (subscribes 6 'p'), .reset 6, .server (leaves 6),
        .server (joins 7 'B'), .server (leaves 5), .server (publishes 'p'), .server (joins 6 'A'),
        .server (unsubscribes 7 'p'), .server (publishes 'p')]).2 :=
  broker_refined (by decide +kernel)

/-- `B` takes over the descriptor of `A` and subscribes; nothing is delivered to it. -/
theorem broker_refined_fails_on_reuse : ∃ events, EachPair wireStep wireBrokerStep WireLegal
      (wireStart sampleSockets) Broker.empty events ∧
    ∃ w effects, run wireStep (wireStart sampleSockets) events = .ok (w, effects) ∧
      ¬ List.Forall₂ Delivered effects (follow wireBrokerStep Broker.empty events).2 := by
  let events : List WireEvent := [.server (joins 5 'A'), .server (leaves 5), .server (joins 5 'B'),
    .server (subscribes 5 'p'), .server (publishes 'p')]
  have hrun : completesIn wireStep (fun _ effects => effects[4]? = some [])
      (wireStart sampleSockets) events = true := by decide +kernel
  have hplaces : ((follow wireBrokerStep Broker.empty events).2[4]?).map
      (Option.map Delivery.places) = some (some [5]) := by decide +kernel
  obtain ⟨w, effects, hr, ht⟩ := exists_run_of_completesIn hrun
  refine ⟨events, by decide +kernel, w, effects, hr, ?_⟩
  intro hall
  obtain ⟨hlt, hnothing⟩ := List.getElem?_eq_some_iff.mp (of_decide_eq_true ht)
  obtain ⟨o, ho, hplace⟩ := Option.map_eq_some_iff.mp hplaces
  obtain ⟨d, rfl, hd⟩ := Option.map_eq_some_iff.mp hplace
  obtain ⟨hlt', hlast⟩ := List.getElem?_eq_some_iff.mp ho
  have hdelivered := hall.get hlt hlt'
  rw [List.get_eq_getElem, List.get_eq_getElem, hnothing, hlast] at hdelivered
  obtain ⟨-, packet, -, hperm⟩ := hdelivered
  rw [hd] at hperm
  exact absurd hperm.length_eq (by simp)

end MessageBroker.BrokerRefinement
