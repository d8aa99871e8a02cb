import MessageBroker.ClientTable
import MessageBroker.PatternInclusion

/-!
# Requests without consequences

A subscription inside one that the client holds already, and the end of such a subscription,
are noticed by nobody: all that follows is the same with and without the request.
-/
namespace MessageBroker.RedundantRequests
open ByteStrings WireFormat ServerStops PollArray SubscriberRecords Notification RegexSyntax
open RegexMatching TopicMatching ServerHandlers HandlerOutcomes ServerRuns TransitionRuns
open ClientTable PatternInclusion

/-- The pattern never makes the scan throw. -/
def WellFormed (p : Bytes) : Prop := (parse (fullRegexPattern p)).toBool = true

instance (p : Bytes) : Decidable (WellFormed p) := inferInstanceAs (Decidable (_ = true))

/-- The scan gives the same for every datagram, the same exception included. -/
def SameInterest (l l' : List Bytes) : Prop :=
  ∀ data, Clean (datagramTopic data) →
    subIsInteresedInTopic (datagramTopic data) l = subIsInteresedInTopic (datagramTopic data) l'

private theorem matchesTopic_of_wellFormed {p : Bytes} (h : WellFormed p) (t : Bytes) :
    matchesTopic t p = .ok (matching t p) := by
  rw [WellFormed] at h
  rw [matching, matchesTopic]
  cases hp : parse (fullRegexPattern p) with
  | error e =>
    rw [hp] at h
    cases h
  | ok a => rfl

private theorem scan_cons_of_wellFormed {p : Bytes} (h : WellFormed p) (t : Bytes)
    (l : List Bytes) :
    subIsInteresedInTopic t (p :: l) =
      if matching t p = true then .ok true else subIsInteresedInTopic t l := by
  rw [subIsInteresedInTopic, matchesTopic_of_wellFormed h]
  cases matching t p <;> rfl

private theorem scan_append (t : Bytes) (l m : List Bytes) :
    subIsInteresedInTopic t (l ++ m) = (subIsInteresedInTopic t l >>= fun interested =>
      if interested = true then .ok true else subIsInteresedInTopic t m) := by
  induction l with
  | nil => rfl
  | cons p l ih =>
    rw [List.cons_append, subIsInteresedInTopic, subIsInteresedInTopic]
    cases matchesTopic t p with
    | error e => rfl
    | ok b =>
      cases b with
      | false => exact ih
      | true => rfl

theorem SameInterest.append {l l' : List Bytes} (h : SameInterest l l') (m : List Bytes) :
    SameInterest (l ++ m) (l' ++ m) := by
  intro data hclean
  rw [scan_append, scan_append, h data hclean]

private theorem scan_of_wellFormed {l : List Bytes} (h : ∀ p ∈ l, WellFormed p) (t : Bytes) :
    subIsInteresedInTopic t l = .ok (l.any (matching t)) := by
  induction l with
  | nil => rfl
  | cons p l ih =>
    obtain ⟨hp, hl⟩ := List.forall_mem_cons.mp h
    rw [scan_cons_of_wellFormed hp, ih hl, List.any_cons]
    cases matching t p <;> rfl

/-- Behind a pattern that includes it a pattern is never tried with success. -/
theorem sameInterest_subscribe {l : List Bytes} {p q : Bytes} (hq : q ∈ l) (hp : WellFormed p)
    (hin : Includes q p) : SameInterest l (l ++ [p]) := by
  intro data hclean
  rw [scan_append]
  rcases subIsInteresedInTopic_cases (datagramTopic data) l with ⟨e, he, -⟩ | hok
  · rw [he, error_bind]
  · rw [hok, ok_bind]
    by_cases hany : l.any (matching (datagramTopic data)) = true
    · rw [if_pos hany, hany]
    · have hno : ¬ matching (datagramTopic data) p = true := by
        intro hm
        exact hany (List.any_eq_true.mpr ⟨q, hq, hin data hclean hm⟩)
      rw [if_neg hany, scan_cons_of_wellFormed hp, if_neg hno, Bool.eq_false_iff.mpr hany]
      rfl

/-- What the pattern matches is matched by one that stays. -/
theorem sameInterest_unsubscribe {l : List Bytes} {p q : Bytes} (hl : ∀ w ∈ l, WellFormed w)
    (hq : q ∈ l.erase p) (hin : Includes q p) : SameInterest l (l.erase p) := by
  intro data hclean
  rw [scan_of_wellFormed hl, scan_of_wellFormed (fun w hw => hl w (List.mem_of_mem_erase hw))]
  apply congrArg Except.ok
  apply Bool.eq_iff_iff.mpr
  rw [List.any_eq_true, List.any_eq_true]
  constructor
  · rintro ⟨w, hw, hm⟩
    by_cases hwp : w = p
    · exact ⟨q, hq, hin data hclean (hwp ▸ hm)⟩
    · exact ⟨w, (List.mem_erase_of_ne hwp).mpr hw, hm⟩
  · rintro ⟨w, hw, hm⟩
    exact ⟨w, List.mem_of_mem_erase hw, hm⟩

/-- Nothing but the patterns of the client `x` differs. -/
structure AlikeRecords (x : Bytes) (d d' : Subscriber) : Prop where
  fd : d'.fd = d.fd
  id : d'.id = d.id
  online : d'.online = d.online
  topics : SameInterest d.topics d'.topics
  others : d.id.val ≠ x → d'.topics = d.topics

abbrev AlikeSubs (x : Bytes) : List Subscriber → List Subscriber → Prop :=
  List.Forall₂ (AlikeRecords x)

structure AlikeRefs (x : Bytes) (r r' : SubRef) : Prop where
  before : AlikeSubs x r.before r'.before
  sub : AlikeRecords x r.sub r'.sub
  behind : AlikeSubs x r.behind r'.behind

structure AlikeServers (x : Bytes) (sv sv' : Server) : Prop where
  subs : AlikeSubs x sv.subs sv'.subs
  svFds : sv'.svFds = sv.svFds

structure AlikeSys (x : Bytes) (s s' : Sys) : Prop where
  server : AlikeServers x s.server s'.server
  opened : s'.opened = s.opened
  admitted : s'.admitted = s.admitted
  live : s'.live = s.live

variable {x : Bytes} {sv sv' : Server}

theorem AlikeRecords.refl (d : Subscriber) : AlikeRecords x d d :=
  ⟨rfl, rfl, rfl, fun _ _ => rfl, fun _ => rfl⟩

private theorem alikeSubs_refl (l : List Subscriber) : AlikeSubs x l l := by
  induction l with
  | nil => exact .nil
  | cons d l ih => exact .cons (.refl d) ih

theorem AlikeRefs.write {r r' : SubRef} (h : AlikeRefs x r r') {d d' : Subscriber}
    (hd : AlikeRecords x d d') : AlikeSubs x (r.write d) (r'.write d') :=
  List.rel_append h.before (.cons hd h.behind)

private theorem lookup_alike {l l' : List Subscriber} (h : AlikeSubs x l l') (fd : ℕ) :
    Option.Rel (AlikeRefs x) (getSubscriberByFd l fd) (getSubscriberByFd l' fd) := by
  induction h with
  | nil => exact .none
  | @cons d d' l l' hd hl ih =>
    rw [getSubscriberByFd, getSubscriberByFd, hd.fd]
    split_ifs
    · exact .some ⟨.nil, hd, hl⟩
    · generalize getSubscriberByFd l fd = a at ih
      generalize getSubscriberByFd l' fd = a' at ih
      cases ih with
      | none => exact .none
      | some hr => exact .some ⟨.cons hd hr.before, hr.sub, hr.behind⟩

inductive AlikeAdmissions (x : Bytes) : Admission → Admission → Prop
  | resumed {l l' : List Subscriber} (h : AlikeSubs x l l') :
      AlikeAdmissions x (.resumed l) (.resumed l')
  | alreadyConnected : AlikeAdmissions x .alreadyConnected .alreadyConnected
  | unknown : AlikeAdmissions x .unknown .unknown

private theorem admission_alike {l l' : List Subscriber} (h : AlikeSubs x l l') (fd : ℕ)
    (y : Bytes) :
    AlikeAdmissions x (admission fd y l) (admission fd y l') := by
  induction h with
  | nil => exact .unknown
  | @cons d d' l l' hd hl ih =>
    rw [admission, admission, hd.id, hd.online]
    split_ifs
    · exact .resumed (.cons ⟨rfl, rfl, rfl, hd.topics, hd.others⟩ hl)
    · exact .alreadyConnected
    · generalize admission fd y l = a at ih
      generalize admission fd y l' = a' at ih
      cases ih with
      | resumed hl' => exact .resumed (.cons hd hl')
      | alreadyConnected => exact .alreadyConnected
      | unknown => exact .unknown

/-- A cleared buffer is the same on both sides, and so is what is received into it. -/
theorem checkAndAddNewSub_agree (h : AlikeServers x sv sv') (hbuff : sv'.buff = sv.buff)
    (fd : ℕ) : Agree (AlikeServers x) (sv.checkAndAddNewSub fd) (sv'.checkAndAddNewSub fd) := by
  have hpayload : sv'.payloadString = sv.payloadString := by
    rw [Server.payloadString, Server.payloadString, hbuff]
  rw [Server.checkAndAddNewSub, Server.checkAndAddNewSub, hpayload]
  cases sv.payloadString with
  | error why => exact .error why
  | ok y =>
    have hadm := admission_alike h.subs fd y
    simp only [ok_bind]
    generalize admission fd y sv.subs = a at hadm
    generalize admission fd y sv'.subs = a' at hadm
    cases hadm with
    | resumed hl => exact .ok _ ⟨hl, h.svFds⟩
    | alreadyConnected => exact .ok _ h
    | unknown =>
      dsimp only
      split_ifs
      · exact .ok _ ⟨List.rel_append h.subs (.cons (.refl _) .nil), h.svFds⟩
      · exact .error _

private theorem acceptBranch_agree (h : AlikeServers x sv sv') (fd : ℕ) (peer : SockAddrIn)
    (p : Packet) :
    Agree (AlikeServers x) (sv.acceptBranch fd peer p) (sv'.acceptBranch fd peer p) := by
  by_cases hb : p.Buffered
  · have hret : ¬ (p.bytes.length : ℤ) < 0 := by omega
    rw [Server.acceptBranch, Server.acceptBranch, recvTcpPacket_of_buffered _ hb,
      recvTcpPacket_of_buffered _ hb]
    simp only [ok_bind, hret, ↓reduceIte]
    have hcleared : AlikeServers x (sv.clearBuffer.holding p) (sv'.clearBuffer.holding p) :=
      ⟨h.subs, h.svFds⟩
    refine (checkAndAddNewSub_agree hcleared rfl fd).bind ?_
    rintro t t' ⟨_ | id, effects⟩ - ht
    · exact .ok _ ⟨ht.subs, ht.svFds⟩
    · dsimp only
      rw [ht.svFds]
      cases t.svFds.addNewPollfdStruc fd with
      | error why => exact .error why
      | ok fds => exact .ok _ ⟨ht.subs, rfl⟩
  · rw [Server.acceptBranch, Server.acceptBranch, recvTcpPacket_of_not_buffered _ hb,
      recvTcpPacket_of_not_buffered _ hb]
    exact .error _

/-- The topic ends inside the packet, and nothing is taken from the client `x`. -/
def Undisturbed (x : Bytes) (subs : List Subscriber) (fd : ℕ) (p : Packet) : Prop :=
  Terminated p ∧
    (p.action = unsubscribeAction → ∀ r ∈ getSubscriberByFd subs fd, r.sub.id.val ≠ x)

instance (x : Bytes) (subs : List Subscriber) (fd : ℕ) (p : Packet) :
    Decidable (Undisturbed x subs fd p) := inferInstanceAs (Decidable (_ ∧ (_ → _)))

private theorem parseTcpClientMessage_agree (h : AlikeServers x sv sv') (fd : ℕ) {p : Packet}
    (hp : Undisturbed x sv.subs fd p) :
    Agree (AlikeServers x) (sv.parseTcpClientMessage fd p) (sv'.parseTcpClientMessage fd p) := by
  by_cases hb : p.Buffered
  · have hfound := lookup_alike h.subs fd
    have hun := hp.2
    rw [parseTcpClientMessage_of_buffered sv fd hb, parseTcpClientMessage_of_buffered sv' fd hb]
    split_ifs with hsub hunsub hsd
    · have hz := hp.1 (.inl hsub)
      rw [Server.handleSubscribe, Server.handleSubscribe, holding_subs, holding_subs]
      generalize getSubscriberByFd sv.subs fd = a at hfound
      generalize getSubscriberByFd sv'.subs fd = a' at hfound
      cases hfound with
      | none => exact .error _
      | some hr =>
        simp only [payloadString_of_terminated _ hb hz, ok_bind]
        refine .ok _ ⟨hr.write ⟨hr.sub.fd, hr.sub.id, hr.sub.online, hr.sub.topics.append _, ?_⟩,
          h.svFds⟩
        intro hne
        exact congrArg (· ++ [p.text]) (hr.sub.others hne)
    · have hz := hp.1 (.inr hunsub)
      have hother := hun hunsub
      rw [Server.handleUnsubscribe, Server.handleUnsubscribe, holding_subs, holding_subs]
      generalize getSubscriberByFd sv.subs fd = a at hfound hother
      generalize getSubscriberByFd sv'.subs fd = a' at hfound
      cases hfound with
      | none => exact .error _
      | some hr =>
        have htopics := hr.sub.others (hother _ rfl)
        simp only [payloadString_of_terminated _ hb hz, ok_bind, htopics]
        split_ifs
        · exact .ok _ ⟨hr.write ⟨hr.sub.fd, hr.sub.id, hr.sub.online, fun _ _ => rfl,
            fun _ => rfl⟩, h.svFds⟩
        · exact .error _
    · rw [Server.handleShutdownSub, Server.handleShutdownSub, holding_subs, holding_subs,
        holding_svFds, holding_svFds, h.svFds]
      generalize getSubscriberByFd sv.subs fd = a at hfound
      generalize getSubscriberByFd sv'.subs fd = a' at hfound
      cases hfound with
      | none => exact .error _
      | some hr =>
        dsimp only
        cases sv.svFds.getPollStrucByFd fd with
        | none => exact .error _
        | some idx =>
          dsimp only
          rw [hr.sub.fd, hr.sub.id]
          exact .ok _ ⟨hr.write ⟨rfl, rfl, rfl, hr.sub.topics, hr.sub.others⟩, rfl⟩
    · exact .ok _ ⟨h.subs, h.svFds⟩
  · rw [Server.parseTcpClientMessage, Server.parseTcpClientMessage,
      recvTcpPacket_of_not_buffered sv hb, recvTcpPacket_of_not_buffered sv' hb]
    exact .error _

private theorem getSubsByTopic_alike {l l' : List Subscriber} (h : AlikeSubs x l l') {data : Bytes}
    (hclean : Clean (datagramTopic data)) :
    (∃ why, getSubsByTopic (datagramTopic data) l = .error why ∧
      getSubsByTopic (datagramTopic data) l' = .error why) ∨
    ∃ m m', getSubsByTopic (datagramTopic data) l = .ok m ∧
      getSubsByTopic (datagramTopic data) l' = .ok m' ∧
      m'.map Subscriber.fd = m.map Subscriber.fd := by
  induction h with
  | nil => exact .inr ⟨[], [], rfl, rfl, rfl⟩
  | @cons d d' l l' hd _ ih =>
    rw [getSubsByTopic, getSubsByTopic, ← hd.topics data hclean, hd.online]
    cases subIsInteresedInTopic (datagramTopic data) d.topics with
    | error why => exact .inl ⟨why, rfl, rfl⟩
    | ok interested =>
      rcases ih with ⟨why, hl, hl'⟩ | ⟨m, m', hl, hl', hmap⟩
      · left
        rw [hl, hl']
        exact ⟨why, rfl, rfl⟩
      · right
        rw [hl, hl']
        refine ⟨_, _, rfl, rfl, ?_⟩
        split_ifs
        · rw [List.map_cons, List.map_cons, hd.fd, hmap]
        · exact hmap

private theorem udpBranch_agree (h : AlikeServers x sv sv') (src : SockAddrIn) {data : Bytes}
    (heap : Memory) (hclean : Clean (datagramTopic data)) :
    Agree (AlikeServers x) (sv.udpBranch src data heap) (sv'.udpBranch src data heap) := by
  rw [Server.udpBranch, Server.udpBranch]
  split_ifs
  · exact .error _
  · rw [Server.parseUdpPacket, Server.parseUdpPacket]
    change Agree _ (buildNotification (received data) heap src >>= _)
      (buildNotification (received data) heap src >>= _)
    cases hbuilt : buildNotification (received data) heap src with
    | error why => exact .error _
    | ok packet =>
      simp only [ok_bind, sendPacketToSubscribers, topic_of_notification hbuilt]
      rcases getSubsByTopic_alike h.subs hclean with ⟨why, hl, hl'⟩ | ⟨m, m', hl, hl', hmap⟩
      · rw [hl, hl']
        exact .error _
      · have hsends := congrArg (List.map fun fd => Effect.send fd (frame packet)) hmap
        simp only [List.map_map, Function.comp_def] at hsends
        rw [hl, hl', ok_bind, ok_bind, ok_bind, ok_bind, hsends]
        exact .ok _ ⟨h.subs, h.svFds⟩

/-- Connections are arbitrary; a datagram has a topic of one line. -/
def Unaware (x : Bytes) (s : Sys) : Event → Prop
  | .connect _ _ _ => True
  | .packet _ fd p => Undisturbed x s.server.subs fd p
  | .datagram _ data _ => Clean (datagramTopic data)

instance (x : Bytes) (s : Sys) : (e : Event) → Decidable (Unaware x s e)
  | .connect _ _ _ => isTrue trivial
  | .packet _ fd p => inferInstanceAs (Decidable (Undisturbed x s.server.subs fd p))
  | .datagram _ data _ => inferInstanceAs (Decidable (Clean (datagramTopic data)))

variable {k : Sockets} {s s' : Sys}

private theorem step_agree {e : Event} (h : AlikeSys x s s') (he : Unaware x s e) :
    Agree (AlikeSys x) (step s e) (step s' e) := by
  cases e with
  | connect fd peer p =>
    rw [step, step, h.opened]
    split_ifs
    · exact .error _
    · refine ((acceptBranch_agree h.server fd peer p).mapError _).bind ?_
      rintro t t' ⟨_ | id, effects⟩ - ht
      · dsimp only
        cases perform (fd :: s.opened) effects with
        | error why => exact .error _
        | ok opened => exact .ok _ ⟨ht, rfl, h.admitted, h.live⟩
      · dsimp only
        rw [h.admitted, h.live]
        cases perform (fd :: s.opened) effects with
        | error why => exact .error _
        | ok opened => exact .ok _ ⟨ht, rfl, rfl, rfl⟩
  | packet first fd p =>
    have hclient : clientFds s'.server = clientFds s.server := by
      rw [clientFds, clientFds, h.server.svFds]
    rw [step, step, hclient, h.opened, h.admitted, h.live]
    by_cases hfd : fd ∈ clientFds s.server
    · have hserver : AlikeServers x (if first then s.server.clearBuffer else s.server)
          (if first then s'.server.clearBuffer else s'.server) := by
        cases first with
        | true => exact ⟨h.server.subs, h.server.svFds⟩
        | false => exact h.server
      have hun : Undisturbed x (if first then s.server.clearBuffer else s.server).subs fd p := by
        cases first with
        | true => exact he
        | false => exact he
      rw [if_neg (not_not.mpr hfd), if_neg (not_not.mpr hfd)]
      refine ((parseTcpClientMessage_agree hserver fd hun).mapError _).bind ?_
      intro t t' effects _ ht
      dsimp only
      rw [clientFds, clientFds, ht.svFds]
      cases perform s.opened effects with
      | error why => exact .error _
      | ok opened => exact .ok _ ⟨ht, rfl, rfl, rfl⟩
    · rw [if_pos hfd, if_pos hfd]
      exact .error _
  | datagram src data heap =>
    rw [step, step, h.opened]
    refine ((udpBranch_agree h.server src heap he).mapError _).bind ?_
    intro t t' effects _ ht
    dsimp only
    cases perform s.opened effects with
    | error why => exact .error _
    | ok opened => exact .ok _ ⟨ht, rfl, h.admitted, h.live⟩

/-- The pattern of a SUBSCRIBE is inside one that is held, that of an UNSUBSCRIBE inside one that
stays. -/
inductive Redundant (topics : List Bytes) (p : Packet) : Prop
  | subscribe {q : Bytes} (action : p.action = subscribeAction) (wellFormed : WellFormed p.text)
      (held : q ∈ topics) (inside : Includes q p.text)
  | unsubscribe {q : Bytes} (action : p.action = unsubscribeAction) (mem : p.text ∈ topics)
      (wellFormed : ∀ w ∈ topics, WellFormed w) (stays : q ∈ topics.erase p.text)
      (inside : Includes q p.text)

/-- The record that the request is resolved to asks for the same behind it. -/
theorem sameInterest_of_redundant {d : Subscriber} {p : Packet} (h : Redundant d.topics p) :
    SameInterest d.topics (actOn p.action p.text d).topics := by
  cases h with
  | subscribe action wellFormed held inside =>
    rw [actOn, if_pos action]
    exact sameInterest_subscribe held wellFormed inside
  | unsubscribe action mem wellFormed stays inside =>
    have hne : p.action ≠ subscribeAction := by rw [action]; decide
    rw [actOn, if_neg hne, if_pos action]
    exact sameInterest_unsubscribe wellFormed stays inside

/-- A redundant request is served, and it changes the patterns of its record only. -/
theorem step_redundant (h : SysInvariant k s) {first : Bool} {fd : ℕ} {p : Packet} {r : SubRef}
    (hfd : fd ∈ s.live.map Connection.fd) (found : getSubscriberByFd s.server.subs fd = some r)
    (hb : p.Buffered) (hz : 0 ∈ p.payload) (hred : Redundant r.sub.topics p) :
    ∃ s₁, step s (.packet first fd p) = .ok (s₁, []) ∧ AlikeSys r.sub.id.val s s₁ := by
  have hterm : Terminated p := fun _ => hz
  have haction : p.action ≠ shutdownClose := by
    cases hred with
    | subscribe action => rw [action]; decide
    | unsubscribe action => rw [action]; decide
  rcases stepCases h (.packet first fd p) with ⟨-, hno⟩ | ⟨-, why, -, hwhy⟩ | ⟨-, s₁, fx, hs, ho⟩
  · exact absurd (List.mem_map.mp hfd) hno
  · exfalso
    cases hwhy with
    | malformed noDie bad => exact bad ⟨hb, hterm⟩
    | notSubscribed found' action text absent =>
      cases found.symm.trans found'
      rw [text hz] at absent
      cases hred with
      | subscribe action' => exact absurd (action'.symm.trans action) (by decide)
      | unsubscribe _ mem => exact absent mem
  · cases ho with
    | request live found' action text held subs svFds =>
      cases found.symm.trans found'
      refine ⟨_, hs, ⟨?_, svFds⟩, rfl, rfl, rfl⟩
      obtain ⟨hinto, -, -⟩ := getSubscriberByFd_eq_some.mp found
      rw [text hz] at subs
      rw [subs, hinto]
      have halike : AlikeRecords r.sub.id.val r.sub (actOn p.action p.text r.sub) :=
        ⟨actOn_fd _ _ _, actOn_id _ _ _, actOn_online haction _ _, sameInterest_of_redundant hred,
          fun hne => absurd rfl hne⟩
      exact List.rel_append (alikeSubs_refl _) (.cons halike (alikeSubs_refl _))
    | shutdown _ _ _ action => exact absurd action haction

/-- A subscription inside one that is held, or the end of one inside one that stays, has no
consequences: every later run has the same effects, or ends for the same reason, as without it. -/
theorem redundant_unnoticed (h : Reachable step (start k) s) {first : Bool} {fd : ℕ} {p : Packet}
    {r : SubRef} (hfd : fd ∈ s.live.map Connection.fd)
    (found : getSubscriberByFd s.server.subs fd = some r) (hb : p.Buffered) (hz : 0 ∈ p.payload)
    (hred : Redundant r.sub.topics p) :
    ∃ s₁, step s (.packet first fd p) = .ok (s₁, []) ∧
      ∀ events, EachStep step (Unaware r.sub.id.val) s events →
        Agree (AlikeSys r.sub.id.val) (run step s events) (run step s₁ events) := by
  obtain ⟨s₁, hs, halike⟩ := step_redundant (sysInvariant_reachable h) hfd found hb hz hred
  refine ⟨s₁, hs, ?_⟩
  intro events hC
  exact run_agree (fun _ _ _ => step_agree) halike hC

/-- `A` holds `*` and asks for `+` as well; then `B` comes, `A` goes and is back. -/
theorem redundant_unnoticed_wildcards : ∃ s s₁, Reachable step (start sampleSockets) s ∧
    step s (subscribes 5 '+') = .ok (s₁, []) ∧
    Agree (AlikeSys [byte 'A'])
      (run step s [publishes 'p', joins 6 'B', subscribes 6 'p', publishes 'p', leaves 5,
        publishes 'p', joins 7 'A', publishes 'q'])
      (run step s₁ [publishes 'p', joins 6 'B', subscribes 6 'p', publishes 'p', leaves 5,
        publishes 'p', joins 7 'A', publishes 'q']) := by
  let events := [publishes 'p', joins 6 'B', subscribes 6 'p', publishes 'p', leaves 5,
    publishes 'p', joins 7 'A', publishes 'q']
  have hrun : completesIn step (fun s _ => 5 ∈ s.live.map Connection.fd ∧
      (getSubscriberByFd s.server.subs 5).map (fun r => (r.sub.id.val, r.sub.topics)) =
        some ([byte 'A'], [[byte '*']]) ∧ EachStep step (Unaware [byte 'A']) s events)
      (start sampleSockets) [joins 5 'A', subscribes 5 '*'] = true := by decide +kernel
  obtain ⟨s, os, hr, ht⟩ := exists_run_of_completesIn hrun
  obtain ⟨hfd, hrecord, hC⟩ := of_decide_eq_true ht
  obtain ⟨r, found, hr'⟩ := Option.map_eq_some_iff.mp hrecord
  obtain ⟨hid, htopics⟩ := Prod.mk.inj hr'
  have hreach : Reachable step (start sampleSockets) s := ⟨_, os, hr⟩
  have hinside : Includes [byte '*'] (letterPacket subscribeAction '+').text :=
    includes_of_matching (by decide +kernel) (by decide +kernel) (by decide +kernel)
      (by decide +kernel) (by decide +kernel)
  have hred : Redundant r.sub.topics (letterPacket subscribeAction '+') :=
    .subscribe rfl (by decide +kernel) (htopics ▸ List.mem_singleton.mpr rfl) hinside
  obtain ⟨s₁, hs, hall⟩ := redundant_unnoticed hreach hfd found (by decide) (by decide) hred
  exact ⟨s, s₁, hreach, hs, hid ▸ hall events (hid ▸ hC)⟩

end MessageBroker.RedundantRequests
