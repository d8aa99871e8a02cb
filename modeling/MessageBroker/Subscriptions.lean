import MessageBroker.ClientTable
import MessageBroker.RequestReplay

/-!
# What a client is subscribed to

A request changes the record that its descriptor leads to, whoever sends it. The topics of a
record are the replay of the requests that have reached it, over all connections of its client.
-/
namespace MessageBroker.Subscriptions
open ByteStrings WireFormat ServerStops SubscriberRecords RequestReplay
open ServerHandlers HandlerOutcomes ServerRuns TransitionRuns ClientTable

def requestIn (p : Packet) : Option (Request Bytes) :=
  if p.action = subscribeAction then some (.subscribe p.text)
  else if p.action = unsubscribeAction then some (.unsubscribe p.text)
  else none

/-- The request of a client of this ID. -/
def requestOf (x : Bytes) (s : Sys) : Event → Option (Request Bytes)
  | .packet _ fd p => if ∃ c ∈ inTable s, c.fd = fd ∧ c.id = x then requestIn p else none
  | .connect _ _ _ => none
  | .datagram _ _ _ => none

/-- The descriptor leads to the record of the ID. -/
def LeadsTo (x : Bytes) (s : Sys) (fd : ℕ) : Prop :=
  ∃ r ∈ (getSubscriberByFd s.server.subs fd).map SubRef.sub, r.id.val = x

instance (x : Bytes) (s : Sys) (fd : ℕ) : Decidable (LeadsTo x s fd) :=
  inferInstanceAs (Decidable (∃ r ∈ _, _))

/-- The request that reaches the record of the ID. -/
def requestTo (x : Bytes) (s : Sys) : Event → Option (Request Bytes)
  | .packet _ fd p => if LeadsTo x s fd then requestIn p else none
  | .connect _ _ _ => none
  | .datagram _ _ _ => none

/-- The requests of a run, as `f` sees each step. -/
def requests (f : Sys → Event → Option (Request Bytes)) : Sys → List Event → List (Request Bytes)
  | _, [] => []
  | s, e :: events => (f s e).toList ++
    match step s e with
    | .ok (s', _) => requests f s' events
    | .error _ => []

/-- The requests that the clients of the ID send, and those that its record gets. -/
def requestsOf (x : Bytes) : Sys → List Event → List (Request Bytes) := requests (requestOf x)
def requestsTo (x : Bytes) : Sys → List Event → List (Request Bytes) := requests (requestTo x)

/-- A pattern that reaches the record has its terminator. -/
def TerminatedTo (x : Bytes) (s : Sys) : Event → Prop
  | .packet _ fd p => LeadsTo x s fd → Terminated p
  | .connect _ _ _ => True
  | .datagram _ _ _ => True

instance (x : Bytes) (s : Sys) : (e : Event) → Decidable (TerminatedTo x s e)
  | .packet _ _ _ => inferInstanceAs (Decidable (_ → _))
  | .connect _ _ _ => isTrue trivial
  | .datagram _ _ _ => isTrue trivial

/-- The connections of the ID are resolved to its record. -/
def OwnRecord (x : Bytes) (s : Sys) : Event → Prop
  | .packet _ fd _ => (∃ c ∈ inTable s, c.fd = fd ∧ c.id = x) → LeadsTo x s fd
  | .connect _ _ _ => True
  | .datagram _ _ _ => True

instance (x : Bytes) (s : Sys) : (e : Event) → Decidable (OwnRecord x s e)
  | .packet _ _ _ => inferInstanceAs (Decidable (_ → _))
  | .connect _ _ _ => isTrue trivial
  | .datagram _ _ _ => isTrue trivial

/-- The record holds the patterns whose last request is a SUBSCRIBE, and its client gets
nothing but what such a pattern matches. -/
structure Honoured (s : Sys) (reqs : List (Request Bytes)) (d : Subscriber) : Prop where
  held : ∀ p, p ∈ d.topics ↔ Wanted reqs p
  delivered : ∀ topic recipients, getSubsByTopic topic s.server.subs = .ok recipients →
    d ∈ recipients → ∃ q, Wanted reqs q ∧ matching topic q = true

variable {k : Sockets} {x : Bytes} {s s' : Sys} {reqs : List (Request Bytes)}

structure Replayed (k : Sockets) (x : Bytes) (s : Sys) (reqs : List (Request Bytes)) : Prop where
  inv : SysInvariant k s
  answered : Answered reqs
  topics : ∀ d ∈ s.server.subs, d.id.val = x → d.topics = replay reqs
  unknown : (∀ d ∈ s.server.subs, d.id.val ≠ x) → replay reqs = []

private theorem replayed_start (k : Sockets) (x : Bytes) : Replayed k x (start k) [] :=
  ⟨sysInvariant_start k, .nil, by simp [start], fun _ => rfl⟩

theorem Replayed.admitted (h : Replayed k x s reqs) {fd : ℕ} {y : Bytes}
    (subs : Admitted s.server.subs fd y s'.server.subs) (h' : SysInvariant k s') :
    Replayed k x s' reqs := by
  refine ⟨h', h.answered, ?_, ?_⟩
  · intro d hd hid
    rcases mem_cases_of_admitted h.inv.ids subs hd with ⟨hy, -, -, hkept | ⟨hnone, hempty⟩⟩ | ⟨hd, -⟩
    · obtain ⟨e, he, heid, htopics⟩ := hkept
      rw [← htopics]
      exact h.topics e he (heid ▸ hid)
    · rw [hempty, h.unknown]
      exact fun e he => hid ▸ hy ▸ hnone e he
    · exact h.topics d hd hid
  · intro hnone
    apply h.unknown
    intro d hd hid
    by_cases hy : d.id.val = y
    · obtain ⟨e, he, hey, -⟩ := exists_record_of_admitted subs
      exact hnone e he (hey.trans (hy.symm.trans hid))
    · exact hnone d (mem_of_admitted subs hd hy) hid

/-- A write to the record of another ID. -/
theorem Replayed.of_write_other (h : Replayed k x s reqs) {r : SubRef}
    (hinto : r.Into s.server.subs) {d : Subscriber} (hid : d.id = r.sub.id)
    (hother : r.sub.id.val ≠ x) (subs : s'.server.subs = r.write d) (h' : SysInvariant k s') :
    Replayed k x s' reqs := by
  refine ⟨h', h.answered, ?_, ?_⟩
  · intro e he hex
    rcases hinto.mem_write_cases h.inv.ids (subs ▸ he) with rfl | ⟨he, -⟩
    · exact absurd (hid ▸ hex) hother
    · exact h.topics e he hex
  · intro hnone
    exact h.unknown ((hinto.forall_id_write hid x).mp (subs ▸ hnone))

/-- A write to the record of the ID. -/
theorem Replayed.of_write (h : Replayed k x s reqs) {r : SubRef} (hinto : r.Into s.server.subs)
    {d : Subscriber} (hid : d.id = r.sub.id) (hx : r.sub.id.val = x)
    (subs : s'.server.subs = r.write d) (h' : SysInvariant k s') {reqs' : List (Request Bytes)}
    (hanswered : Answered reqs') (htopics : d.topics = replay reqs') : Replayed k x s' reqs' := by
  refine ⟨h', hanswered, ?_, ?_⟩
  · intro e he hex
    rcases hinto.mem_write_cases h.inv.ids (subs ▸ he) with rfl | ⟨-, hne⟩
    · exact htopics
    · exact absurd (Subtype.ext (hex.trans hx.symm)) hne
  · intro hnone
    have hmem : d ∈ s'.server.subs := subs ▸ SubRef.mem_write.mpr (.inr (.inl rfl))
    exact absurd (hid ▸ hx) (hnone d hmem)

private theorem leadsTo_iff {fd : ℕ} {r : SubRef}
    (found : getSubscriberByFd s.server.subs fd = some r) :
    LeadsTo x s fd ↔ r.sub.id.val = x := by
  simp [LeadsTo, found]

private theorem answered_requestIn (h : Answered reqs) {p : Packet}
    (held : p.action = unsubscribeAction → p.text ∈ replay reqs) :
    Answered (reqs ++ (requestIn p).toList) := by
  rw [requestIn]
  by_cases hsub : p.action = subscribeAction
  · rw [if_pos hsub]
    exact h.subscribe p.text
  · by_cases hun : p.action = unsubscribeAction
    · rw [if_neg hsub, if_pos hun]
      exact h.unsubscribe (held hun)
    · rw [if_neg hsub, if_neg hun, Option.toList_none, List.append_nil]
      exact h

/-- What a packet does to the topics is what its request does to the replay. -/
private theorem topics_actOn {d : Subscriber} (h : d.topics = replay reqs) {p : Packet}
    {topic : Bytes} (action : p.action ≠ shutdownClose)
    (text : p.action = subscribeAction ∨ p.action = unsubscribeAction → topic = p.text) :
    (actOn p.action topic d).topics = replay (reqs ++ (requestIn p).toList) := by
  rw [actOn, requestIn]
  by_cases hsub : p.action = subscribeAction
  · rw [if_pos hsub, if_pos hsub, text (.inl hsub), h, Option.toList_some, replay_concat]
    rfl
  · by_cases hun : p.action = unsubscribeAction
    · rw [if_neg hsub, if_pos hun, if_neg hsub, if_pos hun, text (.inr hun), h,
        Option.toList_some, replay_concat]
      rfl
    · rw [if_neg hsub, if_neg hun, if_neg action, if_neg hsub, if_neg hun, Option.toList_none,
        List.append_nil]
      exact h

private theorem replayed_step (h : Replayed k x s reqs) {e : Event} {effects : List Effect}
    (hterm : TerminatedTo x s e) (hs : step s e = .ok (s', effects)) :
    Replayed k x s' (reqs ++ (requestTo x s e).toList) := by
  have ho := outcome_of_step h.inv hs
  have h' := sysInvariant_outcome h.inv ho
  cases ho with
  | refused line free record online subs svFds =>
    rw [requestTo, Option.toList_none, List.append_nil]
    exact ⟨h', h.answered, subs ▸ h.topics, subs ▸ h.unknown⟩
  | admitted line free room subs svFds =>
    rw [requestTo, Option.toList_none, List.append_nil]
    exact h.admitted subs h'
  | @request first p c r topic server live found action text held subs svFds =>
    have hinto := (getSubscriberByFd_eq_some.mp found).1
    rw [requestTo]
    by_cases hx : r.sub.id.val = x
    · have hleads := (leadsTo_iff found).mpr hx
      have htopics := h.topics r.sub hinto.mem hx
      rw [if_pos hleads]
      refine h.of_write hinto (actOn_id _ _ _) hx subs h' (answered_requestIn h.answered ?_)
        (topics_actOn htopics action (fun hreq => text (hterm hleads hreq)))
      intro hun
      rw [← htopics, ← text (hterm hleads (.inr hun))]
      exact held hun
    · rw [if_neg (fun hleads => hx ((leadsTo_iff found).mp hleads)), Option.toList_none,
        List.append_nil]
      exact h.of_write_other hinto (actOn_id _ _ _) hx subs h'
  | @shutdown first p before behind c r server line live found action subs svFds =>
    have hinto := (getSubscriberByFd_eq_some.mp found).1
    have hnone : requestTo x s (.packet first c.fd p) = none := by
      rw [requestTo, requestIn, action]
      split_ifs with _ hsub hun
      · cases hsub
      · cases hun
      · rfl
      · rfl
    rw [hnone, Option.toList_none, List.append_nil]
    by_cases hx : r.sub.id.val = x
    · exact h.of_write (d := { r.sub with online := false }) hinto rfl hx subs h' h.answered
        (h.topics r.sub hinto.mem hx)
    · exact h.of_write_other (d := { r.sub with online := false }) hinto rfl hx subs h'
  | datagram subs svFds built opened =>
    rw [requestTo, Option.toList_none, List.append_nil]
    exact ⟨h', h.answered, subs ▸ h.topics, subs ▸ h.unknown⟩

/-- After a run the record has the topics that the requests to it make of those before. -/
theorem replayed_run (h : Replayed k x s reqs) {events : List Event}
    {effects : List (List Effect)} (hterm : EachStep step (TerminatedTo x) s events)
    (hr : run step s events = .ok (s', effects)) :
    Replayed k x s' (reqs ++ requestsTo x s events) := by
  induction events generalizing s reqs effects with
  | nil =>
    obtain ⟨rfl, -⟩ : s = s' ∧ [] = effects := by simpa [run] using hr
    exact (List.append_nil reqs).symm ▸ h
  | cons e events ih =>
    obtain ⟨s₁, o, os, hs, hr', -⟩ := run_cons.mp hr
    rw [requestsTo, requests, hs, ← List.append_assoc]
    exact ih (replayed_step h hterm.1 hs) (hterm.2 s₁ o hs) hr'

/-- Nothing but the list of patterns decides about the notifications. -/
theorem honoured_iff_held {d : Subscriber} :
    Honoured s reqs d ↔ ∀ p, p ∈ d.topics ↔ Wanted reqs p := by
  refine ⟨Honoured.held, fun hheld => ⟨hheld, ?_⟩⟩
  intro topic recipients hok hmem
  rcases getSubsByTopic_cases topic s.server.subs with ⟨e, he, -⟩ | hfilter
  · rw [he] at hok
    cases hok
  · rw [hfilter] at hok
    cases hok
    have hrecipient := (List.mem_filter.mp hmem).2
    rw [isRecipient, Bool.and_eq_true, List.any_eq_true] at hrecipient
    obtain ⟨⟨q, hq, hmatch⟩, -⟩ := hrecipient
    exact ⟨q, (hheld q).mp hq, hmatch⟩

end MessageBroker.Subscriptions
