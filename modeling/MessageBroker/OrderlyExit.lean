import MessageBroker.ClientLinks
import MessageBroker.OnlineFlags

/-!
# Exits of subscribers

A subscriber is to close its socket only when the server has handled its SHUTDOWN_CLOSE.
It does not wait for that; the theorem is about the runs in which the server happens to
have read everything when the subscriber closes.
-/
namespace MessageBroker.OrderlyExit
open ByteStrings WireFormat ServerStops SubscriberRecords Notification NotificationLayout
open ServerHandlers HandlerOutcomes ServerRuns TransitionRuns ClientTable OnlineFlags
open SubscriberHandlers DescriptorLifetimes ClientLinks

/-- A subscriber that has exited is out of the table, and its record is offline unless a later
connection of the ID is in the table. A notification goes to subscribers that have not closed. -/
structure ExitsOrderly (n : Net) : Prop where
  handled : ∀ l ∈ n.links, l.stage = .exited → ∃ c, l.server = .admitted c ∧ c ∉ inTable n.sys ∧
    ∀ d ∈ n.sys.server.subs, d.id.val = c.id → d.online = true → ∃ e ∈ inTable n.sys, e.id = c.id
  notified : ∀ src data heap n' effects, netStep n (.datagram src data heap) = .ok (n', effects) →
    ∀ q ∈ sends effects, (∃ l ∈ n.links, l.serverFd n.sys = some q.1) ∧
      ∀ l ∈ n.links, l.serverFd n.sys = some q.1 → l.stage = .running ∨ l.stage = .exiting

/-- The server has read all that the subscriber sent before it closes, and a SHUTDOWN_CLOSE finds
no older record with its descriptor in front of the record of its sender. -/
def Patient (n : Net) : NetEvent → Prop
  | .client i .close => ∀ l ∈ n.links[i]?, l.toServer = []
  | .serve i _ p => p.action = shutdownClose → ∀ l ∈ n.links[i]?, ∀ c ∈ l.connection,
      Unshadowed n.sys.server.subs c.id c.fd
  | _ => True

instance (n : Net) : (e : NetEvent) → Decidable (Patient n e)
  | .client i .close => inferInstanceAs (Decidable (∀ l ∈ n.links[i]?, _))
  | .client _ (.request _) => isTrue trivial
  | .client _ .exit => isTrue trivial
  | .client _ (.receive _) => isTrue trivial
  | .serve i _ _ => inferInstanceAs (Decidable (_ → ∀ l ∈ n.links[i]?, ∀ c ∈ l.connection, _))
  | .connect _ _ => isTrue trivial
  | .accept _ _ _ => isTrue trivial
  | .datagram _ _ _ => isTrue trivial

/-- What the stage of the subscriber says about its streams and about the server's end. -/
def StageInvariant (s : Sys) (l : Link) : Prop :=
  match l.stage with
  | .running => Carries (fun _ => True) l.toServer
  | .exiting => (∃ c, l.server = .admitted c ∧ c ∉ s.live) ∨ EndsWith shutdownPacket l.toServer
  | .exited => ∃ c, l.server = .admitted c ∧ c ∉ s.live
  | .dismissed => ∃ fd, l.server = .refused fd

structure LinkInvariant (s : Sys) (l : Link) : Prop where
  pending : l.server = .pending →
    ∃ (q : Packet) (rest : Bytes), q.action = connectAction ∧ l.toServer = q.bytes ++ rest
  refused : ∀ fd, l.server = .refused fd → fd ∈ s.opened ∧ ∀ c ∈ s.live, c.fd ≠ fd
  admitted : ∀ c, l.server = .admitted c → c.serial < s.admitted.length
  stage : StageInvariant s l
  toClient : (∃ fd, l.server = .refused fd) ∨ Carries (·.action = notificationAction) l.toClient

/-- What a step of the server keeps: connections that become live are new ones on descriptors
that were not open, and only descriptors of live connections are closed. -/
structure Kept (s s' : Sys) : Prop where
  live : ∀ c ∈ s'.live, c ∈ s.live ∨ (c.serial = s.admitted.length ∧ c.fd ∉ s.opened)
  admitted : s.admitted.length ≤ s'.admitted.length
  opened : ∀ fd ∈ s.opened, (∀ c ∈ s.live, c.fd ≠ fd) → fd ∈ s'.opened

variable {k : Sockets} {s s' : Sys} {l : Link} {n n' : Net}

theorem kept_of_outcome {e : Event} {effects : List Effect} (ho : Outcome k s e s' effects) :
    Kept s s' := by
  cases ho with
  | refused line free record online subs svFds =>
    exact ⟨fun c hc => .inl hc, le_rfl, fun fd hfd _ => List.mem_cons_of_mem _ hfd⟩
  | admitted line free room subs svFds =>
    refine ⟨?_, Nat.le_succ _, fun fd hfd _ => List.mem_cons_of_mem _ hfd⟩
    intro c hc
    rcases List.mem_append.mp hc with hc | hc
    · exact .inl hc
    · obtain rfl := List.mem_singleton.mp hc
      exact .inr ⟨rfl, free⟩
  | request live found action text held subs svFds =>
    exact ⟨fun c hc => .inl hc, le_rfl, fun fd hfd _ => hfd⟩
  | @shutdown _ p before behind c r server line live found action subs svFds =>
    have hsub : before ++ behind ⊆ s.live := live ▸ remaining_sublist.subset
    refine ⟨fun d hd => .inl (hsub hd), le_rfl, ?_⟩
    intro fd hfd hother
    have hne : fd ≠ c.fd := (hother c (by simp [live])).symm
    exact List.mem_filter.mpr ⟨hfd, decide_eq_true hne⟩
  | datagram subs svFds built opened =>
    exact ⟨fun c hc => .inl hc, le_rfl, fun fd hfd _ => hfd⟩

/-- A connection that is not live does not become live again. -/
theorem Kept.notMem (hk : Kept s s') {c : Connection} (hserial : c.serial < s.admitted.length)
    (hc : c ∉ s.live) : c ∉ s'.live := by
  intro hc'
  rcases hk.live c hc' with hlive | ⟨hnew, -⟩
  · exact hc hlive
  · exact absurd hnew hserial.ne

theorem LinkInvariant.kept (h : LinkInvariant s l) (hk : Kept s s') : LinkInvariant s' l where
  pending := h.pending
  refused fd hfd := by
    obtain ⟨hopen, hother⟩ := h.refused fd hfd
    refine ⟨hk.opened fd hopen hother, ?_⟩
    intro c hc
    rcases hk.live c hc with hlive | ⟨-, hfresh⟩
    · exact hother c hlive
    · exact fun he => hfresh (he ▸ hopen)
  admitted c hc := (h.admitted c hc).trans_le hk.admitted
  stage := by
    have hgone (hout : ∃ c, l.server = .admitted c ∧ c ∉ s.live) :
        ∃ c, l.server = .admitted c ∧ c ∉ s'.live := by
      obtain ⟨c, hc, hlive⟩ := hout
      exact ⟨c, hc, hk.notMem (h.admitted c hc) hlive⟩
    have hstage := h.stage
    rw [StageInvariant] at hstage ⊢
    cases hl : l.stage with
    | running =>
      rw [hl] at hstage
      exact hstage
    | exiting =>
      rw [hl] at hstage
      exact hstage.imp_left hgone
    | exited =>
      rw [hl] at hstage
      exact hgone hstage
    | dismissed =>
      rw [hl] at hstage
      exact hstage
  toClient := h.toClient

/-- Notifications may be delivered to every link, other packets to refused ones only. -/
theorem LinkInvariant.deliver (h : LinkInvariant s l) {effects : List Effect}
    (hq : (∃ fd, l.server = .refused fd) ∨ ∀ q ∈ sends effects, l.serverFd s = some q.1 →
      ∃ p : Packet, q.2 = p.bytes ∧ p.action = notificationAction) :
    LinkInvariant s (l.deliver s effects) where
  pending := h.pending
  refused := h.refused
  admitted := h.admitted
  stage := h.stage
  toClient := by
    rcases h.toClient with hrefused | hcarries
    · exact .inl hrefused
    · rcases hq with hrefused | hnotices
      · exact .inl hrefused
      · right
        apply hcarries.append
        apply Carries.flatMap
        intro q hmem
        split
        · rename_i hfd
          obtain ⟨p, hbytes, haction⟩ := hnotices q hmem hfd
          rw [hbytes]
          exact carries_packet haction
        · exact carries_nil _

/-- More from the subscriber does not change what is at the front. -/
theorem LinkInvariant.pending_append (h : LinkInvariant s l) (hpend : l.server = .pending)
    (bs : Bytes) : ∃ (q : Packet) (rest : Bytes),
      q.action = connectAction ∧ l.toServer ++ bs = q.bytes ++ rest := by
  obtain ⟨q, rest, haction, hq⟩ := h.pending hpend
  exact ⟨q, rest ++ bs, haction, by rw [hq, List.append_assoc]⟩

/-- A subscriber that closes when everything is read has been handled. -/
theorem linkInvariant_client (h : LinkInvariant s l) {a : ClientAction} {l' : Link}
    (hpatient : a = .close → l.toServer = []) (hs : clientStep a l = some l') :
    LinkInvariant s l' ∧ l'.server = l.server := by
  have hstage := h.stage
  cases a with
  | request p =>
    rw [clientStep] at hs
    split_ifs at hs with hc
    cases hs
    rw [StageInvariant, hc.1] at hstage
    refine ⟨{ h with pending := fun hpend => h.pending_append hpend p.bytes, stage := ?_ }, rfl⟩
    rw [StageInvariant, hc.1]
    exact hstage.append (carries_packet trivial)
  | exit =>
    rw [clientStep] at hs
    split_ifs at hs with hc
    cases hs
    rw [StageInvariant, hc] at hstage
    rw [exitBytes_eq]
    exact ⟨{ h with
      pending := fun hpend => h.pending_append hpend shutdownPacket.bytes
      stage := .inr ⟨l.toServer, hstage, rfl⟩ }, rfl⟩
  | close =>
    rw [clientStep] at hs
    split_ifs at hs with hc
    cases hs
    rw [StageInvariant, hc] at hstage
    refine ⟨{ h with stage := ?_ }, rfl⟩
    rcases hstage with hgone | hends
    · exact hgone
    · exact absurd (hpatient rfl) hends.ne_nil
  | receive p =>
    rw [clientStep] at hs
    split_ifs at hs with hc hend
    · cases hs
      -- an admitted subscriber is sent notifications only
      have hrefused : ∃ fd, l.server = .refused fd := by
        rcases h.toClient with hrefused | hcarries
        · exact hrefused
        · rw [(hcarries.pop hc.2).1] at hend
          exact absurd hend (by decide)
      exact ⟨{ h with stage := hrefused, toClient := .inl hrefused }, rfl⟩
    · cases hs
      rw [StageInvariant, hc.1] at hstage
      refine ⟨{ h with stage := hstage, toClient := ?_ }, rfl⟩
      exact h.toClient.imp_right (fun hcarries => (hcarries.pop hc.2).2)

/-- The server consumes a packet of a link whose end is open or not accepted yet, and the last
packet of an exiting subscriber takes it out of the table. -/
theorem stageInvariant_consume (h : StageInvariant s l) {p : Packet} {server : ServerEnd}
    (hfront : p.bytes <+: l.toServer) (hpresent : ∀ c, l.server = .admitted c → c ∈ s.live)
    (hopen : ∀ fd, l.server ≠ .refused fd)
    (hlast : p = shutdownPacket → ∃ c, server = .admitted c ∧ c ∉ s'.live) :
    StageInvariant s' (l.consume p server) := by
  have hstay {c : Connection} (hout : l.server = .admitted c ∧ c ∉ s.live) : False :=
    hout.2 (hpresent c hout.1)
  rw [StageInvariant] at h ⊢
  simp only [Link.consume]
  cases hl : l.stage with
  | running =>
    rw [hl] at h
    exact (h.pop hfront).2
  | exiting =>
    rw [hl] at h
    rcases h with ⟨c, hout⟩ | hends
    · exact (hstay hout).elim
    · exact (hends.pop hfront).imp_left hlast
  | exited =>
    rw [hl] at h
    obtain ⟨c, hout⟩ := h
    exact (hstay hout).elim
  | dismissed =>
    rw [hl] at h
    obtain ⟨fd, hfd⟩ := h
    exact absurd hfd (hopen fd)

structure NetInvariant (k : Sockets) (n : Net) : Prop where
  inv : SysInvariant k n.sys
  flags : Flags n.sys
  links : ∀ l ∈ n.links, LinkInvariant n.sys l
  linked : ∀ c ∈ n.sys.live, ∃ l ∈ n.links, l.server = .admitted c

private theorem netInvariant_begin (k : Sockets) : NetInvariant k (begin k) where
  inv := sysInvariant_start k
  flags := by simp [Flags, begin, start]
  links := by simp [begin]
  linked := by simp [begin, start]

private theorem linked_set {links : List Link} {i : ℕ} {l l' : Link} {c : Connection}
    (hl : links[i]? = some l) (hserver : l.server = .admitted c → l'.server = .admitted c)
    (h : ∃ m ∈ links, m.server = .admitted c) : ∃ m ∈ links.set i l', m.server = .admitted c := by
  obtain ⟨m, hm, hc⟩ := h
  rcases mem_set_or hl hm with rfl | hm
  · exact ⟨l', List.mem_set (List.getElem?_eq_some_iff.mp hl).1 l', hserver hc⟩
  · exact ⟨m, hm, hc⟩

private theorem linked_deliver {links : List Link} {s : Sys} {effects : List Effect}
    {c : Connection} (h : ∃ m ∈ links, m.server = .admitted c) :
    ∃ m ∈ links.map (Link.deliver s effects), m.server = .admitted c := by
  obtain ⟨m, hm, hc⟩ := h
  exact ⟨m.deliver s effects, List.mem_map_of_mem hm, hc⟩

private theorem netInvariant_connect (h : NetInvariant k n) {peer : SockAddrIn} {p : Packet}
    {effects : List Effect} (hs : netStep n (.connect peer p) = .ok (n', effects)) :
    NetInvariant k n' := by
  rw [netStep] at hs
  split_ifs at hs with haction
  cases hs
  refine ⟨h.inv, h.flags, ?_, ?_⟩
  · intro l hl
    rcases List.mem_append.mp hl with hl | hl
    · exact h.links l hl
    · obtain rfl := List.mem_singleton.mp hl
      refine ⟨?_, ?_, ?_, carries_packet trivial, .inr (carries_nil _)⟩
      · exact fun _ => ⟨p, [], haction, (List.append_nil _).symm⟩
      · intro fd hfd
        cases hfd
      · intro c hc
        cases hc
  · intro c hc
    obtain ⟨l, hl, hserver⟩ := h.linked c hc
    exact ⟨l, List.mem_append_left _ hl, hserver⟩

private theorem netInvariant_client (h : NetInvariant k n) {i : ℕ} {a : ClientAction}
    {effects : List Effect} (hp : Patient n (.client i a))
    (hs : netStep n (.client i a) = .ok (n', effects)) : NetInvariant k n' := by
  obtain ⟨l, l', hl, hstep, rfl⟩ := client_cases hs
  have hpatient (hclose : a = .close) : l.toServer = [] := by
    subst hclose
    exact hp l hl
  obtain ⟨hinv, hserver⟩ := linkInvariant_client (h.links l (List.mem_of_getElem? hl)) hpatient hstep
  refine ⟨h.inv, h.flags, ?_, ?_⟩
  · intro m hm
    rcases mem_of_mem_set hm with rfl | hm
    · exact hinv
    · exact h.links m hm
  · intro c hc
    exact linked_set hl hserver.trans (h.linked c hc)

theorem serverFd_eq_some {fd : ℕ} (h : l.serverFd s = some fd) :
    l.server = .refused fd ∨ ∃ c ∈ inTable s, l.server = .admitted c ∧ c.fd = fd := by
  rw [Link.serverFd] at h
  split at h
  · cases h
  · rename_i hserver
    cases h
    exact .inl hserver
  · rename_i c hserver
    split_ifs at h with hc
    cases h
    exact .inr ⟨c, hc, hserver, rfl⟩

/-- What is sent on a new descriptor arrives at the new connection only. -/
theorem deliver_fresh (h : LinkInvariant s l) (hinv : SysInvariant k s) {effects : List Effect}
    (hfresh : ∀ q ∈ sends effects, ∀ c ∈ s.live, c.fd ≠ q.1) :
    LinkInvariant s (l.deliver s effects) := by
  apply h.deliver
  by_cases hrefused : ∃ fd, l.server = .refused fd
  · exact .inl hrefused
  · right
    intro q hq hfd
    rcases serverFd_eq_some hfd with hserver | ⟨c, hc, -, hcfd⟩
    · exact absurd ⟨q.1, hserver⟩ hrefused
    · exact absurd hcfd (hfresh q hq c (inTable_eq hinv ▸ hc))

/-- The first packet of a link that is not accepted yet is its CONNECT. -/
theorem LinkInvariant.first (h : LinkInvariant s l) (hpend : l.server = .pending) {p : Packet}
    (hfront : p.bytes <+: l.toServer) : p ≠ shutdownPacket := by
  obtain ⟨q, rest, haction, hq⟩ := h.pending hpend
  rw [hq] at hfront
  obtain ⟨rfl, -⟩ := eq_of_front hfront
  intro he
  rw [he] at haction
  exact absurd haction (by decide)

theorem LinkInvariant.stage_accepted (h : LinkInvariant s l) (hpend : l.server = .pending)
    {p : Packet} (hfront : p.bytes <+: l.toServer) (server : ServerEnd) :
    StageInvariant s' (l.consume p server) := by
  apply stageInvariant_consume h.stage hfront
  · intro c hc
    rw [hpend] at hc
    cases hc
  · intro fd hfd
    rw [hpend] at hfd
    cases hfd
  · exact fun he => absurd he (h.first hpend hfront)

/-- A refused link has a descriptor that is open and in no table. -/
theorem linkInvariant_refused {p : Packet} {fd : ℕ}
    (hstage : StageInvariant s (l.consume p (.refused fd))) (hopen : fd ∈ s.opened)
    (hfresh : ∀ c ∈ s.live, c.fd ≠ fd) : LinkInvariant s (l.consume p (.refused fd)) := by
  refine ⟨?_, ?_, ?_, hstage, .inl ⟨fd, rfl⟩⟩
  · intro hserver
    cases hserver
  · intro _ hserver
    cases hserver
    exact ⟨hopen, hfresh⟩
  · intro c hserver
    cases hserver

/-- Nothing has been sent to a link before it is admitted. -/
theorem linkInvariant_admitted (h : LinkInvariant s l) (hpend : l.server = .pending) {p : Packet}
    {c : Connection} (hstage : StageInvariant s' (l.consume p (.admitted c)))
    (hserial : c.serial < s'.admitted.length) : LinkInvariant s' (l.consume p (.admitted c)) := by
  refine ⟨?_, ?_, ?_, hstage, ?_⟩
  · intro hserver
    cases hserver
  · intro _ hserver
    cases hserver
  · intro d hserver
    cases hserver
    exact hserial
  · rcases h.toClient with ⟨fd, hfd⟩ | hcarries
    · rw [hpend] at hfd
      cases hfd
    · exact .inr hcarries

private theorem netInvariant_accept (h : NetInvariant k n) {i fd : ℕ} {p : Packet}
    {effects : List Effect}
    (hs : netStep n (.accept i fd p) = .ok (n', effects)) : NetInvariant k n' := by
  obtain ⟨l, hl, hpend, hfront, hadvance⟩ := accept_cases hs
  obtain ⟨sys, hstep, rfl⟩ := advance_cases hadvance
  have ho := outcome_of_step h.inv hstep
  have h' := sysInvariant_outcome h.inv ho
  have hk := kept_of_outcome ho
  have hflags : Flags sys := (flags_step_iff h.inv h.flags hstep).mpr trivial
  have hold := h.links l (List.mem_of_getElem? hl)
  have hlinked {c : Connection} (l' : Link) (hc : c ∈ n.sys.live) :
      ∃ m ∈ n.links.set i l', m.server = .admitted c := by
    apply linked_set hl _ (h.linked c hc)
    intro hserver
    rw [hpend] at hserver
    cases hserver
  cases ho with
  | @refused _ _ _ r server line free record online subs svFds =>
    have hfresh : ∀ c ∈ n.sys.live, c.fd ≠ fd := fun c hc he => free (he ▸ h.inv.liveOpened c hc)
    have hserver : (if sends [.print line, .send fd [shutdownIntruder, 0, 0, 0, 0]] = [] then
        ServerEnd.admitted ⟨n.sys.admitted.length, fd, p.text⟩ else .refused fd) = .refused fd :=
      if_neg (by simp [sends])
    rw [hserver]
    refine ⟨h', hflags, ?_, fun c hc => linked_deliver (hlinked _ hc)⟩
    intro _ hdelivered
    obtain ⟨m, hm, rfl⟩ := List.mem_map.mp hdelivered
    have hinv : LinkInvariant ⟨server, fd :: n.sys.opened, n.sys.admitted, n.sys.live⟩ m := by
      rcases mem_of_mem_set hm with rfl | hm
      · exact linkInvariant_refused (hold.stage_accepted hpend hfront _) List.mem_cons_self hfresh
      · exact (h.links m hm).kept hk
    apply deliver_fresh hinv h'
    intro q hq
    obtain rfl : q = (fd, [shutdownIntruder, 0, 0, 0, 0]) := by simpa [sends] using hq
    exact hfresh
  | @admitted _ _ _ server line free room subs svFds =>
    have hsends : sends [.print line] = [] := rfl
    rw [if_pos hsends, map_deliver_of_sends_nil _ hsends]
    refine ⟨h', hflags, ?_, ?_⟩
    · intro m hm
      rcases mem_of_mem_set hm with rfl | hm
      · exact linkInvariant_admitted hold hpend (hold.stage_accepted hpend hfront _)
          (Nat.lt_succ_self _)
      · exact (h.links m hm).kept hk
    · intro c hc
      rcases List.mem_append.mp hc with hc | hc
      · exact hlinked _ hc
      · obtain rfl := List.mem_singleton.mp hc
        exact ⟨_, List.mem_set (List.getElem?_eq_some_iff.mp hl).1 _, rfl⟩

/-- A packet of a subscriber lets nothing be sent, and no connection become live. -/
theorem of_packet_outcome {first : Bool} {fd : ℕ} {p : Packet} {effects : List Effect}
    (ho : Outcome k s (.packet first fd p) s' effects) :
    sends effects = [] ∧ ∀ d ∈ s'.live, d ∈ s.live := by
  cases ho with
  | request live found action text held subs svFds => exact ⟨rfl, fun d hd => hd⟩
  | @shutdown _ _ before behind c r server line live found action subs svFds =>
    refine ⟨rfl, ?_⟩
    intro d hd
    exact live ▸ remaining_sublist.subset hd

private theorem netInvariant_serve (h : NetInvariant k n) {i : ℕ} {first : Bool} {p : Packet}
    {effects : List Effect} (hp : Patient n (.serve i first p))
    (hs : netStep n (.serve i first p) = .ok (n', effects)) : NetInvariant k n' := by
  obtain ⟨l, c, hl, hserver, hin, hfront, hadvance⟩ := serve_cases hs
  obtain ⟨sys, hstep, rfl⟩ := advance_cases hadvance
  rw [inTable_eq h.inv] at hin
  have ho := outcome_of_step h.inv hstep
  have h' := sysInvariant_outcome h.inv ho
  have hk := kept_of_outcome ho
  have hold := h.links l (List.mem_of_getElem? hl)
  have hconnection : l.connection = some c := by rw [Link.connection, hserver]
  have hflags : Flags sys := by
    apply (flags_step_iff h.inv h.flags hstep).mpr
    intro haction d hd hfd
    have hsame : d = c := List.inj_on_of_nodup_map h.inv.liveFds (inTable_eq h.inv ▸ hd) hin hfd
    rw [hsame]
    exact hp haction l hl c hconnection
  obtain ⟨hsends, hsub⟩ := of_packet_outcome ho
  have hlast (he : p = shutdownPacket) : ∃ d, l.server = .admitted d ∧ d ∉ sys.live := by
    refine ⟨c, hserver, ?_⟩
    intro hc
    have hfds := clientFds_step h.inv hstep
    rw [track, if_pos (he ▸ rfl), h'.clientFds_eq] at hfds
    have hmem := List.mem_map_of_mem (f := Connection.fd) hc
    rw [hfds] at hmem
    exact of_decide_eq_true (List.mem_filter.mp hmem).2 rfl
  have hstage : StageInvariant sys (l.consume p l.server) := by
    apply stageInvariant_consume hold.stage hfront _ _ hlast
    · intro d hd
      rw [hserver] at hd
      cases hd
      exact hin
    · intro fd hfd
      rw [hserver] at hfd
      cases hfd
  rw [map_deliver_of_sends_nil sys hsends]
  refine ⟨h', hflags, ?_, fun d hd => linked_set hl id (h.linked d (hsub d hd))⟩
  intro m hm
  rcases mem_of_mem_set hm with rfl | hm
  · refine { hold.kept hk with pending := ?_, stage := hstage }
    intro hpend
    rw [Link.consume, hserver] at hpend
    cases hpend
  · exact (h.links m hm).kept hk

theorem sends_notifications (subs : List Subscriber) (packet : Memory) :
    sends (subs.map (fun sub => .send sub.fd (frame packet))) =
      subs.map (fun sub => (sub.fd, frame packet)) := by
  simp [sends, List.filterMap_map]

private theorem netInvariant_datagram (h : NetInvariant k n) {src : SockAddrIn} {data : Bytes}
    {heap : Memory} {effects : List Effect}
    (hs : netStep n (.datagram src data heap) = .ok (n', effects)) : NetInvariant k n' := by
  obtain ⟨sys, hstep, rfl⟩ := datagram_cases hs
  have ho := outcome_of_step h.inv hstep
  have h' := sysInvariant_outcome h.inv ho
  have hk := kept_of_outcome ho
  have hflags : Flags sys := (flags_step_iff h.inv h.flags hstep).mpr trivial
  cases ho with
  | datagram subs svFds built opened =>
    refine ⟨h', hflags, ?_, fun c hc => linked_deliver (h.linked c hc)⟩
    intro _ hdelivered
    obtain ⟨m, hm, rfl⟩ := List.mem_map.mp hdelivered
    apply ((h.links m hm).kept hk).deliver
    right
    intro q hq _
    rw [sends_notifications] at hq
    obtain ⟨sub, -, rfl⟩ := List.mem_map.mp hq
    obtain ⟨p, hframe, haction, -⟩ := packet_of_built built
    exact ⟨p, hframe, haction⟩

private theorem netInvariant_step (h : NetInvariant k n) {e : NetEvent} {effects : List Effect}
    (hp : Patient n e) (hs : netStep n e = .ok (n', effects)) : NetInvariant k n' := by
  cases e with
  | connect peer p => exact netInvariant_connect h hs
  | client i a => exact netInvariant_client h hp hs
  | accept i fd p => exact netInvariant_accept h hs
  | serve i first p => exact netInvariant_serve h hp hs
  | datagram src data heap => exact netInvariant_datagram h hs

/-- The descriptor of a notification is that of a live connection. -/
theorem NetInvariant.live_of_notified (h : NetInvariant k n) {src : SockAddrIn} {data : Bytes}
    {heap : Memory} {effects : List Effect}
    (hs : netStep n (.datagram src data heap) = .ok (n', effects)) {q : ℕ × Bytes}
    (hq : q ∈ sends effects) : ∃ c ∈ n.sys.live, c.fd = q.1 := by
  obtain ⟨sys, hstep, rfl⟩ := datagram_cases hs
  cases outcome_of_step h.inv hstep with
  | datagram subs svFds built opened =>
    rw [sends_notifications] at hq
    obtain ⟨sub, hsub, rfl⟩ := List.mem_map.mp hq
    obtain ⟨hmem, hrecipient⟩ := List.mem_filter.mp hsub
    rw [isRecipient, Bool.and_eq_true] at hrecipient
    obtain ⟨c, hlast, hin⟩ := (h.flags sub hmem).mp hrecipient.2
    rw [inTable_eq h.inv] at hin
    have hid : c.id = sub.id.val := by simpa using List.find?_some hlast
    obtain ⟨d, hd, hdid, hfd, -⟩ := h.inv.records c hin
    have hsame : d = sub := eq_of_id h.inv.ids hd hmem (Subtype.ext (hdid.trans hid))
    exact ⟨c, hin, hsame ▸ hfd.symm⟩

/-- The subscriber of a live connection has not closed. -/
theorem LinkInvariant.open_of_live (h : LinkInvariant s l) {c : Connection} (hc : c ∈ s.live)
    (hserver : l.server = .admitted c) : l.stage = .running ∨ l.stage = .exiting := by
  have hstage := h.stage
  rw [StageInvariant] at hstage
  cases hl : l.stage with
  | running => exact .inl rfl
  | exiting => exact .inr rfl
  | exited =>
    rw [hl] at hstage
    obtain ⟨d, hd, hgone⟩ := hstage
    rw [hserver] at hd
    cases hd
    exact absurd hc hgone
  | dismissed =>
    rw [hl] at hstage
    obtain ⟨fd, hfd⟩ := hstage
    rw [hserver] at hfd
    cases hfd

private theorem exitsOrderly_of_invariant (h : NetInvariant k n) : ExitsOrderly n where
  handled := by
    intro l hl hexited
    have hstage := (h.links l hl).stage
    rw [StageInvariant, hexited] at hstage
    obtain ⟨c, hserver, hgone⟩ := hstage
    rw [inTable_eq h.inv]
    refine ⟨c, hserver, hgone, ?_⟩
    intro d hd hid hon
    obtain ⟨e, hlast, hin⟩ := (h.flags d hd).mp hon
    have heid : e.id = d.id.val := by simpa using List.find?_some hlast
    exact ⟨e, inTable_eq h.inv ▸ hin, heid.trans hid⟩
  notified := by
    intro src data heap n' effects hs q hq
    obtain ⟨c, hc, hfd⟩ := h.live_of_notified hs hq
    constructor
    · obtain ⟨l, hl, hserver⟩ := h.linked c hc
      refine ⟨l, hl, ?_⟩
      simp only [Link.serverFd, hserver]
      rw [if_pos (inTable_eq h.inv ▸ hc), hfd]
    · intro l hl hon
      rcases serverFd_eq_some hon with hrefused | ⟨d, hd, hserver, -⟩
      · exact absurd hfd (((h.links l hl).refused q.1 hrefused).2 c hc)
      · exact (h.links l hl).open_of_live (inTable_eq h.inv ▸ hd) hserver

/-- In every run in which the server has read everything whenever a subscriber closes, the exits
are orderly throughout. -/
theorem exitsOrderly_throughout {events : List NetEvent}
    (hp : EachStep netStep Patient (begin k) events) :
    Throughout netStep ExitsOrderly (begin k) events := by
  apply throughout_of_eachStep _ _ (netInvariant_begin k) hp
  · intro m hm
    exact exitsOrderly_of_invariant hm
  · intro m e m' effects hm he hs
    exact netInvariant_step hm he hs

def samplePeer : SockAddrIn := ⟨4000, samplePort_lt, (127, 0, 0, 1)⟩

/-- `A` connects, is admitted and subscribes to `p`. -/
def subscribed : List NetEvent :=
  [.connect samplePeer (letterPacket connectAction 'A'),
    .accept 0 5 (letterPacket connectAction 'A'),
    .client 0 (.request (letterPacket subscribeAction 'p')),
    .serve 0 true (letterPacket subscribeAction 'p')]

def publication : NetEvent := .datagram samplePeer (byte 'p' :: List.replicate 55 0) (fun _ => 0)

/-- A notification is still sent to `A` after its exit, and the server handles the exit before `A`
closes. -/
theorem exitsOrderly_throughout_handled :
    (∃ n effects, run netStep (begin sampleSockets) (subscribed ++
      [.client 0 .exit, publication, .serve 0 true shutdownPacket, .client 0 .close,
        publication]) = .ok (n, effects) ∧ n.links.map Link.stage = [.exited]) ∧
    Throughout netStep ExitsOrderly (begin sampleSockets) (subscribed ++
      [.client 0 .exit, publication, .serve 0 true shutdownPacket, .client 0 .close,
        publication]) := by
  constructor
  · have hrun : completesIn netStep (fun n _ => n.links.map Link.stage = [.exited])
        (begin sampleSockets) (subscribed ++ [.client 0 .exit, publication,
          .serve 0 true shutdownPacket, .client 0 .close, publication]) = true := by
      decide +kernel
    obtain ⟨n, effects, hr, ht⟩ := exists_run_of_completesIn hrun
    exact ⟨n, effects, hr, of_decide_eq_true ht⟩
  · exact exitsOrderly_throughout (by decide +kernel)

/-- `A` has closed its socket, and the server sends it the next notification. -/
theorem exitsOrderly_fails : ∃ n, Reachable netStep (begin sampleSockets) n ∧ ¬ ExitsOrderly n := by
  have hrun : completesIn netStep (fun n _ =>
      (∃ l ∈ n.links, l.serverFd n.sys = some 5 ∧ l.stage = .exited) ∧
        completesIn netStep (fun _ effects => effects.map (fun fx => (sends fx).map Prod.fst) = [[5]])
          n [publication] = true)
      (begin sampleSockets) (subscribed ++ [.client 0 .exit, .client 0 .close]) = true := by
    decide +kernel
  obtain ⟨n, effects, hr, ht⟩ := exists_run_of_completesIn hrun
  obtain ⟨⟨l, hl, hfd, hexited⟩, hlate⟩ := of_decide_eq_true ht
  refine ⟨n, ⟨_, effects, hr⟩, ?_⟩
  intro h
  obtain ⟨n', os, hr', hsent⟩ := exists_run_of_completesIn hlate
  obtain ⟨n₁, fx, os', hs, -, rfl⟩ := run_cons.mp hr'
  have hsends := (List.cons.inj (of_decide_eq_true hsent)).1
  obtain ⟨q, hq, hq5⟩ := List.mem_map.mp (hsends ▸ List.mem_singleton_self 5)
  have hstage := (h.notified _ _ _ n₁ fx hs q hq).2 l hl (hq5 ▸ hfd)
  rw [hexited] at hstage
  rcases hstage with hstage | hstage
  · cases hstage
  · cases hstage

end MessageBroker.OrderlyExit
