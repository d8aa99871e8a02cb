import MessageBroker.BrokerRefinement
import MessageBroker.ListFacts
import MessageBroker.NotificationDisplay
import MessageBroker.OrderlyExit

/-!
# What arrives at a subscriber

The abstract broker, with the numbers of links as its places, posts refusals and
notifications. The stream to each subscriber consists of what is posted to its link.
-/
namespace MessageBroker.StreamDelivery
open ListFacts ByteStrings WireFormat ServerStops PollArray SubscriberRecords Notification
open NotificationLayout NotificationDisplay ServerHandlers HandlerOutcomes ServerRuns
open TransitionRuns ClientTable PublishSubscribe BrokerRefinement ClientLinks OrderlyExit

/-- The last one is what `shutdown_server` sends. -/
inductive Post
  | refusal
  | notice (src : SockAddrIn) (data : Bytes) (heap : Memory)
      (known : (copyLen (datagramType data)).isSome)
  | farewell

theorem fits_framePayload {data : Bytes} (src : SockAddrIn) (heap : Memory)
    (known : (copyLen (datagramType data)).isSome) :
    sizeofTcpHdr + (framePayload (received data) heap src).length < 2 ^ 31 := by
  have hle : (sentValue (received data)).length ≤ 1501 :=
    length_sentValue_le ((received_front data).2 ▸ known)
  rw [length_framePayload, sizeofTcpHdr]
  omega

theorem fits_header : sizeofTcpHdr + ([] : Bytes).length < 2 ^ 31 := by decide

def Post.packet : Post → Packet
  | .refusal => ⟨shutdownIntruder, [], fits_header⟩
  | .notice src data heap known =>
    ⟨notificationAction, framePayload (received data) heap src, fits_framePayload src heap known⟩
  | .farewell => ⟨shutdownClose, [], fits_header⟩

def Post.bytes (q : Post) : Bytes := q.packet.bytes

structure Mail where
  post : Post
  links : List ℕ

section

private theorem lawfulBEq_bytes : LawfulBEq Bytes := inferInstance

/-- Identifiers are compared as byte strings. -/
local instance decidableMemBytes (x : Bytes) (l : List Bytes) : Decidable (x ∈ l) :=
  @List.instDecidableMemOfLawfulBEq Bytes _ lawfulBEq_bytes x l

/-- Requests count for the ID with which their link was admitted, whatever its descriptor is. -/
def hubStep (b : ClientBroker) : NetEvent → ClientBroker × Option Mail
  | .connect _ _ => (b, none)
  | .client _ _ => (b, none)
  | .accept i _ p => (b.enter i p.text,
      if p.text ∈ b.live.map Prod.snd then some ⟨.refusal, [i]⟩ else none)
  | .serve i first p => ((brokerStep b (.packet first i p)).1, none)
  | .datagram src data heap => (b,
      if known : (copyLen (datagramType data)).isSome then
        some ⟨.notice src data heap known, b.recipients (matching (datagramTopic data))⟩
      else none)

end

/-- What is posted to a link. -/
def posted (i : ℕ) (mail : Option Mail) : List Post :=
  mail.elim [] (fun m => if i ∈ m.links then [m.post] else [])

def inbox (i : ℕ) (mails : List (Option Mail)) : List Post := mails.flatMap (posted i)

/-- The packet that a subscriber takes off its stream. -/
def taken (i : ℕ) : NetEvent → List Packet
  | .client j (.receive p) => if j = i then [p] else []
  | _ => []

/-- A request with a topic carries it with its terminator and finds no older record with its
descriptor in front of the record of its sender. -/
def Attributed (n : Net) : NetEvent → Prop
  | .serve i _ p => IsRequest p.action → Terminated p ∧
      ∀ l ∈ n.links[i]?, ∀ c ∈ l.connection, Unshadowed n.sys.server.subs c.id c.fd
  | _ => True

instance (n : Net) : (e : NetEvent) → Decidable (Attributed n e)
  | .serve i _ _ => inferInstanceAs (Decidable (_ → _ ∧ ∀ l ∈ n.links[i]?, ∀ c ∈ l.connection, _))
  | .client _ _ => isTrue trivial
  | .connect _ _ => isTrue trivial
  | .accept _ _ _ => isTrue trivial
  | .datagram _ _ _ => isTrue trivial

/-- A link that does not exist yet counts as pending. -/
def serverEnd (links : List Link) (i : ℕ) : ServerEnd := links[i]?.elim .pending Link.server

def stream (n : Net) (i : ℕ) : Bytes := n.links[i]?.elim [] Link.toClient

/-- What arrives on a link of the effects of a step. -/
def arriving (s : Sys) (effects : List Effect) (l : Option Link) : Bytes :=
  (sends effects).flatMap (fun q => if l.bind (·.serverFd s) = some q.1 then q.2 else [])

variable {k : Sockets} {s s' : Sys} {n n' : Net} {b : ClientBroker} {links : List Link}
  {effects : List Effect} {i : ℕ}

private theorem serverEnd_deliver (s : Sys) (effects : List Effect) (links : List Link) :
    serverEnd (links.map (Link.deliver s effects)) i = serverEnd links i := by
  rw [serverEnd, serverEnd, List.getElem?_map]
  cases links[i]? with
  | none => rfl
  | some l => rfl

theorem stream_deliver (s : Sys) (effects : List Effect) (links : List Link) :
    stream ⟨s, links.map (Link.deliver s effects)⟩ i =
      stream ⟨s, links⟩ i ++ arriving s effects links[i]? := by
  rw [stream, stream, List.getElem?_map]
  cases links[i]? with
  | none => simp [arriving]
  | some l => rfl

theorem serverEnd_set {old new : Link} (h : links[i]? = some old) (j : ℕ) :
    serverEnd (links.set i new) j = if j = i then new.server else serverEnd links j := by
  obtain ⟨hlt, -⟩ := List.getElem?_eq_some_iff.mp h
  rw [serverEnd, serverEnd]
  split_ifs with hj
  · rw [hj, List.getElem?_set_self hlt]
    rfl
  · rw [List.getElem?_set_ne (Ne.symm hj)]

theorem serverEnd_of_getElem? {l : Link} (h : links[i]? = some l) :
    serverEnd links i = l.server := by
  rw [serverEnd, h]
  rfl

/-- A step of the server takes from the other stream of a link. -/
theorem stream_consume {l : Link} (h : links[i]? = some l) (p : Packet) (server : ServerEnd)
    (s s' : Sys) (j : ℕ) :
    stream ⟨s', links.set i (l.consume p server)⟩ j = stream ⟨s, links⟩ j := by
  obtain ⟨hlt, -⟩ := List.getElem?_eq_some_iff.mp h
  rw [stream, stream]
  by_cases hj : j = i
  · rw [hj, List.getElem?_set_self hlt, h]
    rfl
  · rw [List.getElem?_set_ne (Ne.symm hj)]

theorem serverEnd_of_serverFd {fd : ℕ} (h : (links[i]?).bind (·.serverFd s) = some fd) :
    serverEnd links i = .refused fd ∨
      ∃ c ∈ inTable s, serverEnd links i = .admitted c ∧ c.fd = fd := by
  obtain ⟨l, hl, hfd⟩ := Option.bind_eq_some_iff.mp h
  rw [serverEnd_of_getElem? hl]
  exact serverFd_eq_some hfd

theorem serverFd_of_admitted {c : Connection} (h : serverEnd links i = .admitted c)
    (hc : c ∈ inTable s) : (links[i]?).bind (·.serverFd s) = some c.fd := by
  rw [serverEnd] at h
  cases hl : links[i]? with
  | none =>
    rw [hl] at h
    cases h
  | some l =>
    rw [hl] at h
    rw [Option.bind_some, Link.serverFd, show l.server = .admitted c from h]
    exact if_pos hc

structure Delivers (k : Sockets) (n : Net) (b : ClientBroker) : Prop where
  server : ∃ d, Refines k n.sys d ∧ Broker.Alike b d
  seats : ∀ i x, (i, x) ∈ b.live ↔ ∃ c ∈ n.sys.live, serverEnd n.links i = .admitted c ∧ c.id = x
  refused : ∀ i fd, serverEnd n.links i = .refused fd →
    fd ∈ n.sys.opened ∧ ∀ c ∈ n.sys.live, c.fd ≠ fd
  serial : ∀ i c, serverEnd n.links i = .admitted c → c.serial < n.sys.admitted.length

theorem delivers_begin (k : Sockets) : Delivers k (begin k) Broker.empty where
  server := ⟨Broker.empty, refines_start k, rfl, fun _ => Iff.rfl⟩
  seats := by simp [begin, start, Broker.empty]
  refused := by simp [begin, serverEnd]
  serial := by simp [begin, serverEnd]

theorem Delivers.inv (h : Delivers k n b) : SysInvariant k n.sys := by
  obtain ⟨d, hd, -⟩ := h.server
  exact hd.inv

/-- Two links are not the same connection. -/
theorem Delivers.link_unique (h : Delivers k n b) {i j : ℕ} {c : Connection}
    (hc : c ∈ n.sys.live) (hi : serverEnd n.links i = .admitted c)
    (hj : serverEnd n.links j = .admitted c) : i = j :=
  Broker.place_unique ((h.seats i c.id).mpr ⟨c, hc, hi, rfl⟩) ((h.seats j c.id).mpr ⟨c, hc, hj, rfl⟩)

theorem Delivers.not_seated (h : Delivers k n b) (hi : serverEnd n.links i = .pending) :
    i ∉ b.live.map Prod.fst := by
  intro hmem
  obtain ⟨⟨j, x⟩, he, rfl⟩ := List.mem_map.mp hmem
  obtain ⟨c, -, hc, -⟩ := (h.seats j x).mp he
  rw [hi] at hc
  cases hc

/-- Of the links only the ends count that are the server's. -/
theorem Delivers.congr (h : Delivers k n b) (hsys : n'.sys = n.sys)
    (hends : ∀ j, serverEnd n'.links j = serverEnd n.links j) : Delivers k n' b where
  server := hsys ▸ h.server
  seats := by
    intro j x
    rw [h.seats, hends, hsys]
  refused := by
    intro j fd
    rw [hends, hsys]
    exact h.refused j fd
  serial := by
    intro j c
    rw [hends, hsys]
    exact h.serial j c

/-- What is posted to a connection by one step: a refusal when it is refused, notices while it is
admitted. -/
inductive Says : ServerEnd → List Post → ServerEnd → Prop
  | nothing (e : ServerEnd) : Says e [] e
  | admits (c : Connection) : Says .pending [] (.admitted c)
  | refuses (fd : ℕ) : Says .pending [.refusal] (.refused fd)
  | notifies (c : Connection) (src : SockAddrIn) (data : Bytes) (heap : Memory)
      (known : (copyLen (datagramType data)).isSome) :
      Says (.admitted c) [.notice src data heap known] (.admitted c)

/-- A step of the network and one of the broker. -/
structure Passes (k : Sockets) (n : Net) (e : NetEvent) (n' : Net) (b : ClientBroker)
    (mail : Option Mail) : Prop where
  delivers : Delivers k n' b
  law : ∀ i, stream n i ++ (posted i mail).flatMap Post.bytes =
    (taken i e).flatMap Packet.bytes ++ stream n' i
  turn : ∀ i, Says (serverEnd n.links i) (posted i mail) (serverEnd n'.links i)

/-- A step in which nothing is posted and no end changes. -/
theorem passes_of_ends {e : NetEvent} (hdelivers : Delivers k n' b)
    (hends : ∀ i, serverEnd n'.links i = serverEnd n.links i)
    (hstream : ∀ i, stream n i = (taken i e).flatMap Packet.bytes ++ stream n' i) :
    Passes k n e n' b none where
  delivers := hdelivers
  law i := (List.append_nil _).trans (hstream i)
  turn i := hends i ▸ .nothing _

theorem passes_connect (h : Delivers k n b) {peer : SockAddrIn} {p : Packet}
    (hs : netStep n (.connect peer p) = .ok (n', effects)) :
    Passes k n (.connect peer p) n' b none := by
  rw [netStep] at hs
  split_ifs at hs
  cases hs
  have hlink {α : Type} (f : Link → α) (a : α) (ha : f ⟨peer, .pending, .running, p.bytes, []⟩ = a)
      (j : ℕ) : (n.links ++ [⟨peer, .pending, .running, p.bytes, []⟩])[j]?.elim a f =
        n.links[j]?.elim a f := by
    rcases Nat.lt_trichotomy j n.links.length with hlt | rfl | hgt
    · rw [List.getElem?_append_left hlt]
    · rw [List.getElem?_concat_length, List.getElem?_eq_none le_rfl]
      exact ha
    · rw [List.getElem?_eq_none hgt.le, List.getElem?_eq_none]
      rw [List.length_append]
      exact hgt
  have hends := hlink Link.server .pending rfl
  exact passes_of_ends (h.congr rfl hends) hends (fun j => (hlink Link.toClient [] rfl j).symm)

/-- A subscriber takes the first packet of its stream or leaves the stream alone. -/
theorem clientStep_ends {a : ClientAction} {l l' : Link} (hs : clientStep a l = some l') :
    l'.server = l.server ∧
      l.toClient = (taken i (.client i a)).flatMap Packet.bytes ++ l'.toClient := by
  cases a with
  | request p =>
    rw [clientStep] at hs
    split_ifs at hs
    cases hs
    exact ⟨rfl, rfl⟩
  | exit =>
    rw [clientStep] at hs
    split_ifs at hs
    cases hs
    exact ⟨rfl, rfl⟩
  | close =>
    rw [clientStep] at hs
    split_ifs at hs
    cases hs
    exact ⟨rfl, rfl⟩
  | receive p =>
    rw [clientStep] at hs
    split_ifs at hs with hc
    all_goals
      cases hs
      refine ⟨rfl, ?_⟩
      obtain ⟨rest, hrest⟩ := hc.2
      simp [taken, ← hrest]

private theorem passes_client (h : Delivers k n b) {j : ℕ} {a : ClientAction}
    (hs : netStep n (.client j a) = .ok (n', effects)) :
    Passes k n (.client j a) n' b none := by
  obtain ⟨l, l', hl, hstep, rfl⟩ := client_cases hs
  obtain ⟨hlt, -⟩ := List.getElem?_eq_some_iff.mp hl
  obtain ⟨hserver, -⟩ := clientStep_ends (i := j) hstep
  have hends (i : ℕ) : serverEnd (n.links.set j l') i = serverEnd n.links i := by
    rw [serverEnd_set hl]
    split_ifs with hi
    · rw [hi, hserver, serverEnd_of_getElem? hl]
    · rfl
  refine passes_of_ends (h.congr rfl hends) hends ?_
  · intro i
    by_cases hi : i = j
    · subst hi
      rw [stream, stream, hl, List.getElem?_set_self hlt]
      exact (clientStep_ends hstep).2
    · have hnone : taken i (.client j a) = [] := by
        cases a with
        | receive p => exact if_neg (Ne.symm hi)
        | request p => rfl
        | exit => rfl
        | close => rfl
      rw [hnone, stream, stream, List.getElem?_set_ne (Ne.symm hi)]
      rfl

theorem Delivers.refused_kept (h : Delivers k n b) (hk : Kept n.sys s') {i fd : ℕ}
    (hfd : serverEnd n.links i = .refused fd) : fd ∈ s'.opened ∧ ∀ c ∈ s'.live, c.fd ≠ fd := by
  obtain ⟨hopen, hother⟩ := h.refused i fd hfd
  refine ⟨hk.opened fd hopen hother, ?_⟩
  intro c hc
  rcases hk.live c hc with hlive | ⟨-, hfresh⟩
  · exact hother c hlive
  · exact fun he => hfresh (he ▸ hopen)

private theorem mem_live_brokerStep {first : Bool} {p : Packet} {e : ℕ × Bytes} :
    e ∈ (brokerStep b (.packet first i p)).1.live ↔
      e ∈ b.live ∧ (p.action = shutdownClose → e.1 ≠ i) := by
  rw [brokerStep]
  split_ifs with hsub hun hsd
  · rw [Broker.live_revise, hsub]
    exact ⟨fun he => ⟨he, fun hact => absurd hact (by decide)⟩, And.left⟩
  · rw [Broker.live_revise, hun]
    exact ⟨fun he => ⟨he, fun hact => absurd hact (by decide)⟩, And.left⟩
  · rw [Broker.live_leave, List.mem_filter, decide_eq_true_iff]
    simp [hsd]
  · simp [hsd]

private theorem alike_brokerStep {d : ClientBroker} (h : Broker.Alike b d) {x : Bytes} {fd : ℕ}
    (hb : (i, x) ∈ b.live) (hd : (fd, x) ∈ d.live) (first : Bool) (p : Packet) :
    Broker.Alike (brokerStep b (.packet first i p)).1 (brokerStep d (.packet first fd p)).1 := by
  rw [brokerStep, brokerStep]
  split_ifs
  · exact h.revise hb hd _
  · exact h.revise hb hd _
  · exact h.leave hb hd
  · exact h

/-- What a packet does to the live connections. -/
theorem mem_live_packet (h : SysInvariant k s) {first : Bool} {c : Connection} {p : Packet}
    (hc : c ∈ s.live) (hs : step s (.packet first c.fd p) = .ok (s', effects)) (e : Connection) :
    e ∈ s'.live ↔ e ∈ s.live ∧ (p.action = shutdownClose → e ≠ c) := by
  have ho := outcome_of_step h hs
  generalize hfd : c.fd = fd at ho
  cases ho with
  | request live found action text held subs svFds => simp [action]
  | @shutdown _ _ before behind c' r server line live found action subs svFds =>
    obtain rfl : c = c' :=
      List.inj_on_of_nodup_map h.liveFds hc (by simp [live]) hfd
    have hgone : c ∉ before ++ behind :=
      fun hleft => fd_ne_of_remaining (live ▸ h.liveFds) hleft rfl
    simp only [live, action, forall_const, List.mem_append, List.mem_cons] at hgone ⊢
    constructor
    · intro he
      exact ⟨he.imp_right .inr, fun hec => hgone (hec ▸ he)⟩
    · rintro ⟨he | he | he, hne⟩
      · exact .inl he
      · exact absurd he hne
      · exact .inr he

private theorem passes_serve (h : Delivers k n b) {first : Bool} {p : Packet}
    (hc : Attributed n (.serve i first p)) (hs : netStep n (.serve i first p) = .ok (n', effects)) :
    Passes k n (.serve i first p) n' (hubStep b (.serve i first p)).1 none := by
  obtain ⟨l, c, hl, hserver, hin, hfront, hadvance⟩ := serve_cases hs
  obtain ⟨sys, hstep, rfl⟩ := advance_cases hadvance
  rw [inTable_eq h.inv] at hin
  have ho := outcome_of_step h.inv hstep
  have hk := kept_of_outcome ho
  obtain ⟨hsends, -⟩ := of_packet_outcome ho
  have hend : serverEnd n.links i = .admitted c := (serverEnd_of_getElem? hl).trans hserver
  have hseat : (i, c.id) ∈ b.live := (h.seats i c.id).mpr ⟨c, hin, hend, rfl⟩
  have hends (j : ℕ) : serverEnd (n.links.set i (l.consume p l.server)) j = serverEnd n.links j := by
    rw [serverEnd_set hl]
    split_ifs with hj
    · rw [hj, serverEnd_of_getElem? hl]
      rfl
    · rfl
  rw [map_deliver_of_sends_nil sys hsends]
  apply passes_of_ends _ hends (fun j => (stream_consume hl p l.server n.sys sys j).symm)
  refine ⟨?_, ?_, ?_, ?_⟩
  · obtain ⟨d, hd, halike⟩ := h.server
    refine ⟨_, hd.survived hstep ?_, alike_brokerStep halike hseat (hd.mem_live hin) _ _⟩
    rintro _ _ _ he haction
    cases he
    obtain ⟨hterm, hclear⟩ := hc haction
    refine ⟨hterm, ?_⟩
    intro e he hfd
    obtain rfl := List.inj_on_of_nodup_map h.inv.liveFds he hin hfd
    exact hclear l hl e (by rw [Link.connection, hserver]; rfl)
  · intro j x
    rw [hubStep, mem_live_brokerStep, h.seats]
    simp only [hends, mem_live_packet h.inv hin hstep]
    constructor
    · rintro ⟨⟨e, he, hj, rfl⟩, hne⟩
      refine ⟨e, ⟨he, ?_⟩, hj, rfl⟩
      rintro haction rfl
      exact hne haction (h.link_unique he hj hend)
    · rintro ⟨e, ⟨he, hne⟩, hj, rfl⟩
      refine ⟨⟨e, he, hj, rfl⟩, ?_⟩
      rintro haction rfl
      exact hne haction (ServerEnd.admitted.inj (hj.symm.trans hend))
  · intro j fd hfd
    rw [hends] at hfd
    exact h.refused_kept hk hfd
  · intro j e he
    rw [hends] at he
    exact (h.serial j e he).trans_le hk.admitted

private theorem delivers_refused (h : Delivers k n b) {l : Link} {fd : ℕ} (p : Packet)
    {server : Server} (line : Bytes) (hl : n.links[i]? = some l) (hpend : l.server = .pending)
    (free : fd ∉ n.sys.opened)
    (hk : Kept n.sys { n.sys with server := server, opened := fd :: n.sys.opened })
    (hserver : ∃ d, Refines k { n.sys with server := server, opened := fd :: n.sys.opened } d ∧
      Broker.Alike b d) :
    let sys : Sys := { n.sys with server := server, opened := fd :: n.sys.opened }
    let effects : List Effect := [.print line, .send fd [shutdownIntruder, 0, 0, 0, 0]]
    let links := n.links.set i (l.consume p (.refused fd))
    Delivers k ⟨sys, links.map (Link.deliver sys effects)⟩ b ∧ ∀ j,
      arriving sys effects links[j]? = if j = i then Post.refusal.bytes else [] := by
  intro sys effects links
  have hpending : serverEnd n.links i = .pending := (serverEnd_of_getElem? hl).trans hpend
  have hends (j : ℕ) : serverEnd links j = if j = i then .refused fd else serverEnd n.links j :=
    serverEnd_set hl j
  have hadmitted (j : ℕ) (c : Connection) :
      serverEnd links j = .admitted c ↔ serverEnd n.links j = .admitted c := by
    rw [hends]
    split_ifs with hj
    · rw [hj, hpending]
      simp
    · rfl
  have hfresh : ∀ c ∈ n.sys.live, c.fd ≠ fd := fun c hc he => free (he ▸ h.inv.liveOpened c hc)
  constructor
  · refine ⟨hserver, ?_, ?_, ?_⟩
    · intro j x
      simp only [serverEnd_deliver, hadmitted]
      exact h.seats j x
    · intro j fd' hfd
      rw [serverEnd_deliver, hends] at hfd
      split_ifs at hfd with hj
      · cases hfd
        exact ⟨List.mem_cons_self, hfresh⟩
      · exact h.refused_kept hk hfd
    · intro j c hc
      rw [serverEnd_deliver, hadmitted] at hc
      exact h.serial j c hc
  · intro j
    obtain ⟨d, hd, -⟩ := hserver
    have hone : arriving sys effects links[j]? =
        if (links[j]?).bind (·.serverFd sys) = some fd then Post.refusal.bytes else [] := by
      rw [arriving, show sends effects = [(fd, Post.refusal.bytes)] from rfl, List.flatMap_singleton]
    have hiff : (links[j]?).bind (·.serverFd sys) = some fd ↔ j = i := by
      constructor
      · intro hfd
        by_contra hj
        rcases serverEnd_of_serverFd hfd with hrefused | ⟨c, hc, -, hcfd⟩
        · rw [hends, if_neg hj] at hrefused
          exact free (h.refused j fd hrefused).1
        · rw [inTable_eq hd.inv] at hc
          exact hfresh c hc hcfd
      · rintro rfl
        rw [List.getElem?_set_self (List.getElem?_eq_some_iff.mp hl).1]
        rfl
    rw [hone]
    simp only [hiff]

private theorem delivers_admitted (h : Delivers k n b) {l : Link} {fd : ℕ} {p : Packet}
    {server : Server} (hl : n.links[i]? = some l) (hpend : l.server = .pending)
    (hx : p.text ∉ b.live.map Prod.snd) {sys : Sys}
    (hsys : sys = ⟨server, fd :: n.sys.opened,
      ⟨n.sys.admitted.length, fd, p.text⟩ :: n.sys.admitted,
      n.sys.live ++ [⟨n.sys.admitted.length, fd, p.text⟩]⟩)
    (hk : Kept n.sys sys) (hserver : ∃ d, Refines k sys d ∧ Broker.Alike (b.enter i p.text) d) :
    Delivers k ⟨sys, n.links.set i
      (l.consume p (.admitted ⟨n.sys.admitted.length, fd, p.text⟩))⟩ (b.enter i p.text) := by
  have hpending : serverEnd n.links i = .pending := (serverEnd_of_getElem? hl).trans hpend
  have hends (j : ℕ) : serverEnd (n.links.set i
      (l.consume p (.admitted ⟨n.sys.admitted.length, fd, p.text⟩))) j =
        if j = i then .admitted ⟨n.sys.admitted.length, fd, p.text⟩ else serverEnd n.links j :=
    serverEnd_set hl j
  have hi := h.not_seated hpending
  refine ⟨hserver, ?_, ?_, ?_⟩
  · intro j x
    rw [Broker.live_enter hi hx, List.mem_append, h.seats]
    simp only [hends, hsys]
    by_cases hj : j = i
    · simp only [hj, hpending, if_true, List.mem_append, List.mem_singleton, Prod.mk.injEq]
      constructor
      · rintro (⟨c, -, hc, -⟩ | ⟨-, rfl⟩)
        · cases hc
        · exact ⟨_, .inr rfl, rfl, rfl⟩
      · rintro ⟨c, -, hc, rfl⟩
        cases hc
        exact .inr ⟨trivial, rfl⟩
    · simp only [List.mem_append, List.mem_singleton, Prod.mk.injEq, hj, false_and, or_false]
      constructor
      · rintro ⟨c, hc, hrest⟩
        exact ⟨c, .inl hc, hrest⟩
      · rintro ⟨c, hc | rfl, hj', hid⟩
        · exact ⟨c, hc, hj', hid⟩
        · exact absurd (h.serial j _ hj') (lt_irrefl _)
  · intro j fd' hfd
    rw [hends] at hfd
    split_ifs at hfd
    exact h.refused_kept hk hfd
  · intro j c hc
    rw [hends] at hc
    split_ifs at hc
    · cases hc
      rw [hsys]
      exact Nat.lt_succ_self _
    · exact (h.serial j c hc).trans_le hk.admitted

private theorem passes_accept (h : Delivers k n b) {fd : ℕ} {p : Packet}
    (hs : netStep n (.accept i fd p) = .ok (n', effects)) : Passes k n (.accept i fd p) n'
      (hubStep b (.accept i fd p)).1 (hubStep b (.accept i fd p)).2 := by
  obtain ⟨l, hl, hpend, hfront, hadvance⟩ := accept_cases hs
  obtain ⟨sys, hstep, rfl⟩ := advance_cases hadvance
  have ho := outcome_of_step h.inv hstep
  have hk := kept_of_outcome ho
  obtain ⟨d, hd, halike⟩ := h.server
  have hrefines := hd.survived hstep (by rintro _ _ _ he; cases he)
  have hfd (free : fd ∉ n.sys.opened) : fd ∉ d.live.map Prod.fst := by
    rw [hd.places_eq]
    intro hmem
    obtain ⟨c, hc, he⟩ := List.mem_map.mp hmem
    exact free (he ▸ hd.inv.liveOpened c hc)
  have hpending : serverEnd n.links i = .pending := (serverEnd_of_getElem? hl).trans hpend
  have hi := h.not_seated hpending
  cases ho with
  | @refused _ _ _ r server line free record online subs svFds =>
    have hconn : p.text ∈ b.live.map Prod.snd := by
      obtain ⟨c, hc, hid, -⟩ := hd.live_of_online record.into.mem online
      rw [halike.clients, hd.clients_eq, ← record.id, ← hid]
      exact List.mem_map_of_mem hc
    have henter := halike.enter hi (hfd free) p.text
    rw [Broker.enter_of_connected hconn] at henter
    obtain ⟨hdelivers, harriving⟩ := delivers_refused h p line hl hpend free hk
      ⟨_, hrefines, henter⟩
    have hserver : (if sends [.print line, .send fd [shutdownIntruder, 0, 0, 0, 0]] = [] then
        ServerEnd.admitted ⟨n.sys.admitted.length, fd, p.text⟩ else .refused fd) = .refused fd :=
      if_neg (by simp [sends])
    rw [hserver, hubStep, Broker.enter_of_connected hconn, if_pos hconn]
    refine ⟨hdelivers, ?_, ?_⟩
    · intro j
      rw [stream_deliver, stream_consume hl p _ n.sys, harriving j]
      by_cases hj : j = i
      · simp [posted, taken, hj]
      · simp [posted, taken, hj]
    · intro j
      rw [serverEnd_deliver, serverEnd_set hl, posted]
      by_cases hj : j = i
      · rw [hj, hpending]
        have hrefuses : Says .pending [.refusal] (l.consume p (.refused fd)).server := .refuses fd
        simpa using hrefuses
      · simpa [hj] using Says.nothing _
  | @admitted _ _ _ server line free room subs svFds =>
    have hnew : p.text ∉ b.live.map Prod.snd := by
      rw [halike.clients, hd.clients_eq]
      exact h.inv.id_notMem_of_admitted subs
    have hsends : sends [.print line] = [] := rfl
    rw [if_pos hsends, map_deliver_of_sends_nil _ hsends, hubStep, if_neg hnew]
    refine ⟨delivers_admitted h hl hpend hnew rfl hk
      ⟨_, hrefines, halike.enter hi (hfd free) p.text⟩, ?_, ?_⟩
    · intro j
      rw [stream_consume hl p _ n.sys]
      exact List.append_nil _
    · intro j
      rw [serverEnd_set hl]
      split_ifs with hj
      · rw [hj, hpending]
        exact .admits _
      · exact .nothing _

theorem arriving_notices {fds : List ℕ} {bs : Bytes} (hnodup : fds.Nodup)
    (hsends : sends effects = fds.map (fun fd => (fd, bs))) (l : Option Link) :
    arriving s effects l = if ∃ fd ∈ fds, l.bind (·.serverFd s) = some fd then bs else [] := by
  rw [arriving, hsends, List.flatMap_map]
  cases hl : l.bind (·.serverFd s) with
  | none => simp
  | some fd =>
    simp only [Option.some.injEq]
    rw [flatMap_ite_of_nodup hnodup]
    simp

/-- A link is reached on the descriptor of a recipient exactly if it is a recipient itself. -/
theorem Delivers.reached_iff (h : Delivers k n b) {d : ClientBroker} (hd : Refines k n.sys d)
    (halike : Broker.Alike b d) (hin : inTable s = n.sys.live) (interest : Bytes → Bool) (j : ℕ) :
    (∃ fd ∈ d.recipients interest, (n.links[j]?).bind (·.serverFd s) = some fd) ↔
      j ∈ b.recipients interest := by
  constructor
  · rintro ⟨fd, hfd, hj⟩
    obtain ⟨x, hx, -⟩ := Broker.mem_recipients.mp hfd
    rw [hd.live] at hx
    obtain ⟨c, hc, he⟩ := List.mem_map.mp hx
    cases he
    rcases serverEnd_of_serverFd hj with hrefused | ⟨e, he, hend, hefd⟩
    · exact absurd rfl ((h.refused j c.fd hrefused).2 c hc)
    · rw [hin] at he
      obtain rfl := List.inj_on_of_nodup_map h.inv.liveFds he hc hefd
      have hseat : (j, e.id) ∈ b.live := (h.seats j e.id).mpr ⟨e, he, hend, rfl⟩
      exact (halike.recipients hseat (hd.mem_live he) interest).mpr hfd
  · intro hj
    obtain ⟨x, hx, -⟩ := Broker.mem_recipients.mp hj
    obtain ⟨c, hc, hend, rfl⟩ := (h.seats j x).mp hx
    exact ⟨c.fd, (halike.recipients hx (hd.mem_live hc) interest).mp hj,
      serverFd_of_admitted hend (hin ▸ hc)⟩

private theorem passes_datagram (h : Delivers k n b) {src : SockAddrIn} {data : Bytes}
    {heap : Memory} (hs : netStep n (.datagram src data heap) = .ok (n', effects)) :
    Passes k n (.datagram src data heap) n' b (hubStep b (.datagram src data heap)).2 := by
  obtain ⟨sys, hstep, rfl⟩ := datagram_cases hs
  have ho := outcome_of_step h.inv hstep
  obtain ⟨d, hd, halike⟩ := h.server
  have hrefines := hd.survived hstep (by rintro _ _ _ he; cases he)
  have hin := inTable_eq hrefines.inv
  cases ho with
  | @datagram _ _ _ packet server subs svFds built opened =>
    have known := (received_front data).2 ▸ known_of_built built
    have hbytes : frame packet = (Post.notice src data heap known).bytes := frame_eq built
    have hperm := hd.recipients (datagramTopic data)
    have hnodup := hperm.nodup_iff.mpr (d.recipients_nodup _)
    rw [hubStep, dif_pos known]
    refine ⟨⟨⟨d, hrefines, halike⟩, ?_, ?_, ?_⟩, ?_, ?_⟩
    · simp only [serverEnd_deliver]
      exact h.seats
    · simp only [serverEnd_deliver]
      exact h.refused
    · simp only [serverEnd_deliver]
      exact h.serial
    · intro j
      have hsends : sends ((n.sys.server.subs.filter (isRecipient (datagramTopic data))).map
          (fun sub => .send sub.fd (frame packet))) =
            ((n.sys.server.subs.filter (isRecipient (datagramTopic data))).map Subscriber.fd).map
              (fun fd => (fd, (Post.notice src data heap known).bytes)) := by
        rw [sends_notifications, List.map_map, hbytes]
        rfl
      rw [stream_deliver, arriving_notices hnodup hsends]
      simp only [hperm.mem_iff, h.reached_iff hd halike hin, posted, Option.elim_some]
      split_ifs
      · exact congrArg _ (List.flatMap_singleton _ _)
      · rfl
    · intro j
      rw [serverEnd_deliver, posted, Option.elim_some]
      split_ifs with hj
      · obtain ⟨x, hx, -⟩ := Broker.mem_recipients.mp hj
        obtain ⟨c, -, hend, -⟩ := (h.seats j x).mp hx
        rw [hend]
        exact .notifies c src data heap known
      · exact .nothing _

theorem passes_step (h : Delivers k n b) {e : NetEvent} (hc : Attributed n e)
    (hs : netStep n e = .ok (n', effects)) :
    Passes k n e n' (hubStep b e).1 (hubStep b e).2 := by
  cases e with
  | connect peer p => exact passes_connect h hs
  | client j a => exact passes_client h hs
  | accept j fd p => exact passes_accept h hs
  | serve j first p => exact passes_serve h hc hs
  | datagram src data heap => exact passes_datagram h hs

/-- Packets that were cut off a stream of packets are its first ones. -/
theorem packets_cut {α : Type} (packet : α → Packet) {ps : List Packet} {qs : List α} {rest : Bytes}
    (h : qs.flatMap (fun q => (packet q).bytes) = ps.flatMap Packet.bytes ++ rest) :
    ∃ done pending, qs = done ++ pending ∧ ps = done.map packet ∧
      rest = pending.flatMap (fun q => (packet q).bytes) := by
  induction ps generalizing qs with
  | nil => exact ⟨[], qs, rfl, rfl, h.symm⟩
  | cons p ps ih =>
    rw [List.flatMap_cons, List.append_assoc] at h
    cases qs with
    | nil =>
      have hpos := p.length_bytes_pos
      rw [(List.append_eq_nil_iff.mp h.symm).1] at hpos
      cases hpos
    | cons q qs =>
      rw [List.flatMap_cons] at h
      obtain ⟨rfl, htail⟩ := Packet.append_inj h
      obtain ⟨done, pending, rfl, rfl, hrest⟩ := ih htail
      exact ⟨q :: done, pending, rfl, rfl, hrest⟩

/-- The bytes that were taken and those in the stream are the bytes of what was posted. -/
theorem sent_eq_posted {events : List NetEvent} {effects : List (List Effect)}
    (hc : EachStep netStep Attributed (begin k) events)
    (hr : run netStep (begin k) events = .ok (n, effects)) (i : ℕ) :
    (events.flatMap (taken i)).flatMap Packet.bytes ++ stream n i =
      (inbox i (follow hubStep Broker.empty events).2).flatMap Post.bytes := by
  have hone : ∀ n b e n' fx, Delivers k n b → Attributed n e → netStep n e = .ok (n', fx) →
      Delivers k n' (hubStep b e).1 ∧
        stream n i ++ (posted i (hubStep b e).2).flatMap Post.bytes =
          (taken i e).flatMap Packet.bytes ++ stream n' i := by
    intro n b e n' fx h hc hs
    have hpasses := passes_step h hc hs
    exact ⟨hpasses.delivers, hpasses.law i⟩
  have hlaw := conserved_of_simulation hubStep (stream · i)
    (fun mail => (posted i mail).flatMap Post.bytes) (fun e => (taken i e).flatMap Packet.bytes)
    hone (delivers_begin k) hc hr
  have hempty : stream (begin k) i = [] := rfl
  rw [hempty, List.nil_append] at hlaw
  rw [inbox, List.flatMap_assoc, List.flatMap_assoc, hlaw]

/-- In a run in which each request is resolved to its sender, the packets that a subscriber has
taken and those in its stream are what the broker has posted to its link, in this order. -/
theorem delivered_once_in_order {events : List NetEvent} {effects : List (List Effect)}
    (hc : EachStep netStep Attributed (begin k) events)
    (hr : run netStep (begin k) events = .ok (n, effects)) (i : ℕ) :
    ∃ done pending, inbox i (follow hubStep Broker.empty events).2 = done ++ pending ∧
      events.flatMap (taken i) = done.map Post.packet ∧
      stream n i = pending.flatMap Post.bytes :=
  packets_cut Post.packet (sent_eq_posted hc hr i).symm

theorem publication_known :
    (copyLen (datagramType (byte 'p' :: List.replicate 55 0))).isSome := by decide +kernel

/-- Two patterns of `A` match, `A` has the descriptor `5` and `B` the descriptor `6`; the second
`A` is refused. Both are sent the datagram, and `A` has taken it. -/
def session : List NetEvent :=
  subscribed ++
    [.client 0 (.request (stringPacket subscribeAction [byte '*'] (by decide))),
      .serve 0 true (stringPacket subscribeAction [byte '*'] (by decide)),
      .connect samplePeer (letterPacket connectAction 'B'),
      .accept 1 6 (letterPacket connectAction 'B'),
      .client 1 (.request (letterPacket subscribeAction 'p')),
      .connect samplePeer (letterPacket connectAction 'A'),
      .accept 2 7 (letterPacket connectAction 'A'),
      .serve 1 true (letterPacket subscribeAction 'p'),
      publication,
      .client 0 (.receive (Post.notice samplePeer (byte 'p' :: List.replicate 55 0) (fun _ => 0)
        publication_known).packet)]

theorem delivered_once_in_order_session : ∃ n effects,
    run netStep (begin sampleSockets) session = .ok (n, effects) ∧ ∀ i, ∃ done pending,
      inbox i (follow hubStep Broker.empty session).2 = done ++ pending ∧
      session.flatMap (taken i) = done.map Post.packet ∧
      stream n i = pending.flatMap Post.bytes := by
  have hrun : completesIn netStep (fun n _ => n.links.length = 3) (begin sampleSockets)
      session = true := by
    decide +kernel
  obtain ⟨n, effects, hr, -⟩ := exists_run_of_completesIn hrun
  exact ⟨n, effects, hr, fun i => delivered_once_in_order (by decide +kernel) hr i⟩

end MessageBroker.StreamDelivery
