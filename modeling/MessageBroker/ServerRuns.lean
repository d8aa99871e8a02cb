import MessageBroker.HandlerOutcomes

/-!
# Runs of the server

One step is a connection, a packet on a connection, or a datagram. Beside the globals of
the server stand the descriptors that are open in the kernel and the connections that
were admitted: descriptor numbers come back, connections do not.
-/
namespace MessageBroker.ServerRuns
open ByteStrings WireFormat ServerStops PollArray SubscriberRecords Notification
open ServerHandlers HandlerOutcomes TransitionRuns

/-- The two sockets the server creates at the start. -/
structure Sockets where
  tcpSock : ℕ
  udpSock : ℕ
  fresh : [0, 1, 2, tcpSock, udpSock].Nodup

/-- An admitted connection with the ID that was received on it. -/
structure Connection where
  serial : ℕ
  fd : ℕ
  id : Bytes
  deriving DecidableEq

def Connection.entry (c : Connection) : Pollfd := ⟨c.fd, pollin⟩

@[simp] theorem Connection.entry_fd (c : Connection) : c.entry.fd = c.fd := rfl

/-- `admitted` has the newest connection first; `live` are the connections in `sv_fds`. -/
structure Sys where
  server : Server
  opened : List ℕ
  admitted : List Connection
  live : List Connection

/-- A packet may find `buff` as an earlier packet of the same pass left it. -/
inductive Event
  | connect (fd : ℕ) (peer : SockAddrIn) (p : Packet)
  | packet (firstOfPass : Bool) (fd : ℕ) (p : Packet)
  | datagram (src : SockAddrIn) (data : Bytes) (heap : Memory)

inductive Halt
  | impossible
  | stopped (why : Stop)

/-- The kernel's side of the effects as far as no peer has reset its connection: a `send` on a
closed descriptor fails forever, every other one succeeds. -/
def perform : List ℕ → List Effect → Except Stop (List ℕ)
  | opened, [] => .ok opened
  | opened, .send fd _ :: effects =>
    if fd ∈ opened then perform opened effects else .error .sendNeverSucceeds
  | opened, .close fd :: effects => perform (opened.filter (· ≠ fd)) effects
  | opened, .shutdown _ :: effects => perform opened effects
  | opened, .print _ :: effects => perform opened effects

/-- `sv_fds[3..sv_fds_count)`. -/
def clientFds (sv : Server) : List ℕ := (sv.svFds.entries.drop 3).map Pollfd.fd

def basicEntries (k : Sockets) : List Pollfd :=
  [⟨0, pollin⟩, ⟨k.tcpSock, pollin⟩, ⟨k.udpSock, pollin⟩]

def start (k : Sockets) : Sys :=
  ⟨⟨fun _ => 0, [], ⟨basicEntries k, 64, 512⟩⟩, [0, 1, 2, k.tcpSock, k.udpSock], [], []⟩

theorem start_svFds (k : Sockets) :
    pushBasicFds k.tcpSock k.udpSock = .ok (start k).server.svFds :=
  pushBasicFds_eq k.tcpSock k.udpSock

/-- `accept` never returns an open descriptor, and `poll` reports packets for the client
descriptors only. -/
def step : Transition Sys Event (List Effect) Halt
  | s, .connect fd peer p =>
    if fd ∈ s.opened then .error .impossible
    else do
      let (server, retId, effects) ← (s.server.acceptBranch fd peer p).mapError .stopped
      let opened ← (perform (fd :: s.opened) effects).mapError .stopped
      match retId with
      | none => .ok ({ s with server := server, opened := opened }, effects)
      | some _ =>
        let c := ⟨s.admitted.length, fd, p.text⟩
        .ok (⟨server, opened, c :: s.admitted, s.live ++ [c]⟩, effects)
  | s, .packet firstOfPass fd p =>
    if fd ∉ clientFds s.server then .error .impossible
    else do
      let server := if firstOfPass then s.server.clearBuffer else s.server
      let (server, effects) ← (server.parseTcpClientMessage fd p).mapError .stopped
      let opened ← (perform s.opened effects).mapError .stopped
      .ok (⟨server, opened, s.admitted, s.live.filter (fun c => c.fd ∈ clientFds server)⟩, effects)
  | s, .datagram src data heap => do
    let (server, effects) ← (s.server.udpBranch src data heap).mapError .stopped
    let opened ← (perform s.opened effects).mapError .stopped
    .ok ({ s with server := server, opened := opened }, effects)

structure SysInvariant (k : Sockets) (s : Sys) : Prop where
  table : s.server.svFds.Initial
  entries : s.server.svFds.entries = basicEntries k ++ s.live.map Connection.entry
  liveFds : (s.live.map Connection.fd).Nodup
  liveOpened : ∀ c ∈ s.live, c.fd ∈ s.opened
  liveFresh : ∀ c ∈ s.live, c.fd ≠ 0 ∧ c.fd ≠ k.tcpSock ∧ c.fd ≠ k.udpSock
  basicOpened : 0 ∈ s.opened ∧ k.tcpSock ∈ s.opened ∧ k.udpSock ∈ s.opened
  ids : (s.server.subs.map Subscriber.id).Nodup
  liveIds : (s.live.map Connection.id).Nodup
  records : ∀ c ∈ s.live, ∃ r ∈ s.server.subs, r.id.val = c.id ∧ r.fd = c.fd ∧ r.online = true
  lastAdmitted : ∀ c ∈ s.live, s.admitted.find? (·.id = c.id) = some c
  lastOnFd : ∀ c ∈ s.live, s.admitted.find? (·.fd = c.fd) = some c

theorem sysInvariant_start (k : Sockets) : SysInvariant k (start k) where
  table := ⟨rfl, rfl, Nat.le_of_ble_eq_true rfl⟩
  entries := rfl
  liveFds := List.nodup_nil
  liveOpened := by simp [start]
  liveFresh := by simp [start]
  basicOpened := by simp [start]
  ids := List.nodup_nil
  liveIds := List.nodup_nil
  records := by simp [start]
  lastAdmitted := by simp [start]
  lastOnFd := by simp [start]

variable {k : Sockets} {s s' : Sys}

theorem SysInvariant.clientFds_eq (h : SysInvariant k s) :
    clientFds s.server = s.live.map Connection.fd := by
  simp [clientFds, h.entries, basicEntries, Function.comp_def]

inductive Outcome (k : Sockets) (s : Sys) : Event → Sys → List Effect → Prop
  | refused {fd : ℕ} {peer : SockAddrIn} {p : Packet} {r : SubRef} {server : Server} (line : Bytes)
      (free : fd ∉ s.opened) (record : RecordOf s.server.subs p.text r)
      (online : r.sub.online = true) (subs : server.subs = s.server.subs)
      (svFds : server.svFds = s.server.svFds) :
      Outcome k s (.connect fd peer p) { s with server := server, opened := fd :: s.opened }
        [.print line, .send fd [shutdownIntruder, 0, 0, 0, 0]]
  | admitted {fd : ℕ} {peer : SockAddrIn} {p : Packet} {server : Server} (line : Bytes)
      (free : fd ∉ s.opened) (room : s.server.svFds.count < backlogMax)
      (subs : Admitted s.server.subs fd p.text server.subs)
      (svFds : server.svFds =
        { s.server.svFds with entries := s.server.svFds.entries ++ [⟨fd, pollin⟩] }) :
      Outcome k s (.connect fd peer p)
        ⟨server, fd :: s.opened, ⟨s.admitted.length, fd, p.text⟩ :: s.admitted,
          s.live ++ [⟨s.admitted.length, fd, p.text⟩]⟩ [.print line]
  | request {first : Bool} {p : Packet} {c : Connection} {r : SubRef} {topic : Bytes}
      {server : Server} (live : c ∈ s.live)
      (found : getSubscriberByFd s.server.subs c.fd = some r) (action : p.action ≠ shutdownClose)
      (text : 0 ∈ p.payload → topic = p.text)
      (held : p.action = unsubscribeAction → topic ∈ r.sub.topics)
      (subs : server.subs = r.write (actOn p.action topic r.sub))
      (svFds : server.svFds = s.server.svFds) :
      Outcome k s (.packet first c.fd p) { s with server := server } []
  | shutdown {first : Bool} {p : Packet} {before behind : List Connection} {c : Connection}
      {r : SubRef} {server : Server} (line : Bytes) (live : s.live = before ++ c :: behind)
      (found : getSubscriberByFd s.server.subs c.fd = some r) (action : p.action = shutdownClose)
      (subs : server.subs = r.write { r.sub with online := false })
      (svFds : server.svFds = { s.server.svFds with
        entries := basicEntries k ++ (before ++ behind).map Connection.entry }) :
      Outcome k s (.packet first c.fd p)
        ⟨server, s.opened.filter (· ≠ c.fd), s.admitted, before ++ behind⟩
        [.shutdown c.fd, .close c.fd, .print line]
  | datagram {src : SockAddrIn} {data : Bytes} {heap packet : Memory} {server : Server}
      (subs : server.subs = s.server.subs) (svFds : server.svFds = s.server.svFds)
      (built : buildNotification (received data) heap src = .ok packet)
      (opened : ∀ sub ∈ s.server.subs, isRecipient (datagramTopic data) sub → sub.fd ∈ s.opened) :
      Outcome k s (.datagram src data heap) { s with server := server }
        ((s.server.subs.filter (isRecipient (datagramTopic data))).map
          (fun sub => .send sub.fd (frame packet)))

/-- Why a step that is possible ends the server. -/
inductive Reason (s : Sys) : Event → Stop → Prop
  | connect {fd : ℕ} {peer : SockAddrIn} {p : Packet} {why : Stop} (noDie : why.isDie = false)
      (cannot : ¬ CanConnect s.server p) : Reason s (.connect fd peer p) why
  | malformed {first : Bool} {fd : ℕ} {p : Packet} {why : Stop} (noDie : why.isDie = false)
      (bad : ¬ (p.Buffered ∧ Terminated p)) : Reason s (.packet first fd p) why
  | notSubscribed {first : Bool} {fd : ℕ} {p : Packet} {r : SubRef} {topic : Bytes}
      (found : getSubscriberByFd s.server.subs fd = some r)
      (action : p.action = unsubscribeAction) (text : 0 ∈ p.payload → topic = p.text)
      (absent : topic ∉ r.sub.topics) : Reason s (.packet first fd p)
        (.die "Error: Subscriber is not subbed to this topic!\n")
  | datagram {src : SockAddrIn} {data : Bytes} {heap : Memory} {why : Stop}
      (noDie : why.isDie = false) (bad : ¬ ((copyLen (datagramType data)).isSome ∧
        Scannable (datagramTopic data) s.server.subs)) :
      Reason s (.datagram src data heap) why
  | closed {src : SockAddrIn} {data : Bytes} {heap : Memory} {sub : Subscriber}
      (mem : sub ∈ s.server.subs) (recipient : isRecipient (datagramTopic data) sub)
      (closed : sub.fd ∉ s.opened) : Reason s (.datagram src data heap) .sendNeverSucceeds

/-- The step can happen at all. -/
def Possible (s : Sys) : Event → Prop
  | .connect fd _ _ => fd ∉ s.opened
  | .packet _ fd _ => ∃ c ∈ s.live, c.fd = fd
  | .datagram _ _ _ => True

def StepCases (k : Sockets) (s : Sys) (e : Event) : Prop :=
  (step s e = .error .impossible ∧ ¬ Possible s e) ∨
  (Possible s e ∧ ∃ why, step s e = .error (.stopped why) ∧ Reason s e why) ∨
  (Possible s e ∧ ∃ s' effects, step s e = .ok (s', effects) ∧ Outcome k s e s' effects)

private theorem perform_sends (opened : List ℕ) (frame : Bytes) (subs : List Subscriber) :
    (perform opened (subs.map (fun sub => .send sub.fd frame)) = .ok opened ∧
      ∀ sub ∈ subs, sub.fd ∈ opened) ∨
    (perform opened (subs.map (fun sub => .send sub.fd frame)) = .error .sendNeverSucceeds ∧
      ∃ sub ∈ subs, sub.fd ∉ opened) := by
  induction subs with
  | nil => exact .inl ⟨rfl, by simp⟩
  | cons sub subs ih =>
    by_cases hfd : sub.fd ∈ opened
    · rcases ih with ⟨hp, hall⟩ | ⟨hp, d, hd, hclosed⟩
      · left
        refine ⟨by simp [perform, hfd, hp], ?_⟩
        intro d hd
        rcases List.mem_cons.mp hd with rfl | hd
        · exact hfd
        · exact hall d hd
      · right
        exact ⟨by simp [perform, hfd, hp], d, List.mem_cons_of_mem _ hd, hclosed⟩
    · right
      exact ⟨by simp [perform, hfd], sub, List.mem_cons_self, hfd⟩

private theorem stepCases_datagram (k : Sockets) (s : Sys) (src : SockAddrIn) (data : Bytes)
    (heap : Memory) : StepCases k s (.datagram src data heap) := by
  rcases udpBranch_cases s.server src data heap with
    ⟨why, hu, hdie, hbad⟩ | ⟨server, packet, hu, hsubs, hfds, hbuilt⟩
  · right
    left
    exact ⟨trivial, why, by simp [step, hu, Except.mapError], .datagram hdie hbad⟩
  · right
    rcases perform_sends s.opened (frame packet)
      (s.server.subs.filter (isRecipient (datagramTopic data))) with ⟨hp, hall⟩ | ⟨hp, d, hd, hc⟩
    · right
      refine ⟨trivial, _, _, ?_, .datagram hsubs hfds hbuilt ?_⟩
      · simp only [step, hu, Except.mapError, ok_bind, hp]
      · intro sub hsub hrec
        exact hall sub (List.mem_filter.mpr ⟨hsub, hrec⟩)
    · left
      obtain ⟨hmem, hrec⟩ := List.mem_filter.mp hd
      refine ⟨trivial, .sendNeverSucceeds, ?_, .closed hmem hrec hc⟩
      simp only [step, hu, Except.mapError, ok_bind, hp, error_bind]

private theorem stepCases_connect (h : SysInvariant k s) (fd : ℕ) (peer : SockAddrIn) (p : Packet) :
    StepCases k s (.connect fd peer p) := by
  by_cases hfd : fd ∈ s.opened
  · exact .inl ⟨by simp [step, hfd], fun hposs => hposs hfd⟩
  · right
    rcases acceptBranch_cases s.server fd peer p h.table with
      ⟨why, ha, hdie, hcan⟩ | ⟨r, server, line, ha, hr, hon, hsubs, hfds⟩ |
        ⟨server, line, ha, hroom, hadm, hfds⟩
    · left
      exact ⟨hfd, why, by simp [step, hfd, ha, Except.mapError], .connect hdie hcan⟩
    · right
      refine ⟨hfd, _, _, ?_, .refused line hfd hr hon hsubs hfds⟩
      simp [step, hfd, ha, Except.mapError, perform]
    · right
      refine ⟨hfd, _, _, ?_, .admitted line hfd hroom hadm hfds⟩
      simp [step, hfd, ha, Except.mapError, perform]

/-- A live connection is found both ways: some record has its descriptor, and its entry is
where the connection stands among the live ones. -/
theorem SysInvariant.lookups (h : SysInvariant k s) {before behind : List Connection}
    {c : Connection} (hlive : s.live = before ++ c :: behind) :
    (∃ r, getSubscriberByFd s.server.subs c.fd = some r) ∧
    s.server.svFds.getPollStrucByFd c.fd =
      some (basicEntries k ++ before.map Connection.entry).length ∧
    s.server.svFds.removeAt (basicEntries k ++ before.map Connection.entry).length =
      { s.server.svFds with
        entries := basicEntries k ++ (before ++ behind).map Connection.entry } := by
  have hmem : c ∈ s.live := by simp [hlive]
  have hentries : s.server.svFds.entries =
      (basicEntries k ++ before.map Connection.entry) ++
        c.entry :: behind.map Connection.entry := by
    rw [h.entries, hlive]
    simp
  refine ⟨?_, ?_, ?_⟩
  · cases hget : getSubscriberByFd s.server.subs c.fd with
    | some r => exact ⟨r, rfl⟩
    | none =>
      obtain ⟨r, hr, -, hfd, -⟩ := h.records c hmem
      exact absurd hfd (getSubscriberByFd_eq_none.mp hget r hr)
  · apply getPollStrucByFd_eq s.server.svFds hentries
    intro d hd
    obtain ⟨h0, htcp, hudp⟩ := h.liveFresh c hmem
    rcases List.mem_append.mp hd with hd | hd
    · simp only [basicEntries, List.mem_cons, List.not_mem_nil, or_false] at hd
      rcases hd with rfl | rfl | rfl
      · exact fun he => h0 he.symm
      · exact fun he => htcp he.symm
      · exact fun he => hudp he.symm
    · obtain ⟨b, hb, rfl⟩ := List.mem_map.mp hd
      have hnodup := h.liveFds
      rw [hlive, List.map_append, List.map_cons] at hnodup
      have hdisj := List.disjoint_of_nodup_append hnodup
      intro he
      have hfd : b.fd = c.fd := he
      exact hdisj (List.mem_map_of_mem hb) (hfd ▸ List.mem_cons_self)
  · rw [removeAt_append _ hentries]
    simp

section

variable {before behind : List Connection} {c : Connection}

theorem remaining_sublist : (before ++ behind).Sublist (before ++ c :: behind) :=
  (List.sublist_cons_self c behind).append_left before

/-- The descriptor of the connection that leaves is none of the remaining ones. -/
theorem fd_ne_of_remaining (hnodup : ((before ++ c :: behind).map Connection.fd).Nodup)
    {d : Connection} (hd : d ∈ before ++ behind) : d.fd ≠ c.fd := by
  rw [(List.perm_middle.map Connection.fd).nodup_iff, List.map_cons, List.nodup_cons] at hnodup
  exact fun he => hnodup.1 (he ▸ List.mem_map_of_mem hd)

/-- Whatever goes by its descriptor takes out the connection that leaves, and only it. -/
theorem filter_fd_ne (hnodup : ((before ++ c :: behind).map Connection.fd).Nodup) :
    (before ++ c :: behind).filter (fun d => d.fd ≠ c.fd) = before ++ behind := by
  have hkeep {l : List Connection} (hl : l ⊆ before ++ behind) :
      l.filter (fun d => d.fd ≠ c.fd) = l := by
    apply List.filter_eq_self.mpr
    intro d hd
    exact decide_eq_true (fd_ne_of_remaining hnodup (hl hd))
  rw [List.filter_append, List.filter_cons_of_neg (by simp),
    hkeep (List.subset_append_left _ _), hkeep (List.subset_append_right _ _)]

/-- After the removal of an entry the connection is gone, and only it. -/
theorem filter_live_of_removed {sv : Server}
    (hnodup : ((before ++ c :: behind).map Connection.fd).Nodup)
    (hfds : clientFds sv = (before ++ behind).map Connection.fd) :
    (before ++ c :: behind).filter (fun d => d.fd ∈ clientFds sv) = before ++ behind := by
  rw [← filter_fd_ne hnodup, hfds]
  apply List.filter_congr
  intro d hd
  rw [decide_eq_decide]
  constructor
  · intro hleft
    obtain ⟨e, he, hfd⟩ := List.mem_map.mp hleft
    exact hfd ▸ fd_ne_of_remaining hnodup he
  · intro hne
    have hleft : d ∈ (before ++ c :: behind).filter (fun e => e.fd ≠ c.fd) :=
      List.mem_filter.mpr ⟨hd, decide_eq_true hne⟩
    exact List.mem_map_of_mem (filter_fd_ne hnodup ▸ hleft)

end

private theorem stepCases_packet (h : SysInvariant k s) (first : Bool) (fd : ℕ) (p : Packet) :
    StepCases k s (.packet first fd p) := by
  by_cases hfd : fd ∈ clientFds s.server
  · right
    obtain ⟨c, hc, rfl⟩ := List.mem_map.mp (h.clientFds_eq ▸ hfd)
    obtain ⟨before, behind, hlive⟩ := List.append_of_mem hc
    obtain ⟨⟨r, hr⟩, hidx, hremove⟩ := h.lookups hlive
    let sv : Server := if first then s.server.clearBuffer else s.server
    have hsvSubs : sv.subs = s.server.subs := by simp only [sv]; split <;> rfl
    have hsvFds : sv.svFds = s.server.svFds := by simp only [sv]; split <;> rfl
    have hstep : step s (.packet first c.fd p) = (do
        let (server, effects) ← (sv.parseTcpClientMessage c.fd p).mapError .stopped
        let opened ← (perform s.opened effects).mapError .stopped
        .ok (⟨server, opened, s.admitted,
          s.live.filter (fun c => c.fd ∈ clientFds server)⟩, effects)) := by
      simp only [step, hfd, not_true_eq_false, ↓reduceIte]
      rfl
    rcases parseTcpClientMessage_cases sv p (hsvSubs ▸ hr) (hsvFds ▸ hidx) with
      ⟨why, hp, hdie, hbad⟩ | ⟨topic, hp, hun, htext, habs⟩ |
        ⟨topic, server, effects, hp, htext, hheld, hsubs, hfds, hsd, hnsd⟩
    · left
      refine ⟨⟨c, hc, rfl⟩, why, ?_, .malformed hdie hbad⟩
      simp only [hstep, hp, Except.mapError, error_bind]
    · left
      refine ⟨⟨c, hc, rfl⟩, _, ?_, .notSubscribed hr hun htext habs⟩
      simp only [hstep, hp, Except.mapError, error_bind]
    · right
      by_cases hact : p.action = shutdownClose
      · obtain ⟨line, rfl⟩ := hsd hact
        rw [if_pos hact, hsvFds, hremove] at hfds
        rw [hact, actOn_shutdown] at hsubs
        have hclient : clientFds server = (before ++ behind).map Connection.fd := by
          simp [clientFds, hfds, basicEntries, Function.comp_def]
        have hfilter := filter_live_of_removed (hlive ▸ h.liveFds) hclient
        refine ⟨⟨c, hc, rfl⟩, _, _, ?_, .shutdown line hlive hr hact hsubs hfds⟩
        simp only [hstep, hp, Except.mapError, ok_bind, perform]
        rw [hlive, hfilter]
      · obtain rfl := hnsd hact
        rw [if_neg hact, hsvFds] at hfds
        have hclient : clientFds server = s.live.map Connection.fd := by
          rw [← h.clientFds_eq, clientFds, hfds, clientFds]
        have hfilter : s.live.filter (fun d => d.fd ∈ clientFds server) = s.live := by
          apply List.filter_eq_self.mpr
          intro d hd
          rw [hclient]
          exact decide_eq_true (List.mem_map_of_mem hd)
        refine ⟨⟨c, hc, rfl⟩, _, _, ?_, .request hc hr hact htext hheld hsubs hfds⟩
        simp only [hstep, hp, Except.mapError, ok_bind, perform]
        rw [hfilter]
  · left
    refine ⟨by simp [step, hfd], ?_⟩
    rintro ⟨c, hc, he⟩
    rw [h.clientFds_eq] at hfd
    exact hfd (he ▸ List.mem_map_of_mem hc)

theorem stepCases (h : SysInvariant k s) (e : Event) : StepCases k s e := by
  cases e with
  | connect fd peer p => exact stepCases_connect h fd peer p
  | packet first fd p => exact stepCases_packet h first fd p
  | datagram src data heap => exact stepCases_datagram k s src data heap

theorem outcome_of_step (h : SysInvariant k s) {e : Event} {effects : List Effect}
    (hs : step s e = .ok (s', effects)) : Outcome k s e s' effects := by
  rcases stepCases h e with ⟨he, -⟩ | ⟨-, why, he, -⟩ | ⟨-, t, fx, he, ho⟩
  · rw [hs] at he
    cases he
  · rw [hs] at he
    cases he
  · rw [hs] at he
    cases he
    exact ho

/-- An admitted ID has no live connection yet. -/
theorem SysInvariant.id_notMem_of_admitted (h : SysInvariant k s) {fd : ℕ} {x : Bytes}
    {subs' : List Subscriber} (ha : Admitted s.server.subs fd x subs') :
    x ∉ s.live.map Connection.id := by
  intro hx
  obtain ⟨c, hc, rfl⟩ := List.mem_map.mp hx
  obtain ⟨d, hd, hid, -, hon⟩ := h.records c hc
  rcases ha with ⟨r, hr, hoff, -⟩ | ⟨hnone, -⟩
  · have hsame : d = r.sub :=
      eq_of_id h.ids hd hr.into.mem (Subtype.ext (hid.trans hr.id.symm))
    rw [hsame, hoff] at hon
    cases hon
  · exact hnone d hd hid

private theorem ids_of_admitted {subs subs' : List Subscriber} {fd : ℕ} {x : Bytes}
    (hids : (subs.map Subscriber.id).Nodup) (ha : Admitted subs fd x subs') :
    (subs'.map Subscriber.id).Nodup := by
  rcases ha with ⟨r, hr, -, rfl⟩ | ⟨hnone, id, hid, rfl⟩
  · exact hr.into.map_id_write (x := { r.sub with fd := fd, online := true }) rfl ▸ hids
  · have hnew : id ∉ subs.map Subscriber.id := by
      intro hmem
      obtain ⟨d, hd, rfl⟩ := List.mem_map.mp hmem
      exact hnone d hd hid
    simpa using hids.concat hnew

/-- The admitted ID has a record that is online with the new descriptor. -/
theorem exists_record_of_admitted {subs subs' : List Subscriber} {fd : ℕ} {x : Bytes}
    (ha : Admitted subs fd x subs') : ∃ r ∈ subs', r.id.val = x ∧ r.fd = fd ∧ r.online = true := by
  rcases ha with ⟨r, hr, -, rfl⟩ | ⟨-, id, hid, rfl⟩
  · exact ⟨_, SubRef.mem_write.mpr (.inr (.inl rfl)), hr.id, rfl, rfl⟩
  · exact ⟨_, List.mem_append_right _ List.mem_cons_self, hid, rfl, rfl⟩

/-- The records of the other IDs are kept. -/
theorem mem_of_admitted {subs subs' : List Subscriber} {fd : ℕ} {x : Bytes}
    (ha : Admitted subs fd x subs') {d : Subscriber} (hd : d ∈ subs) (hne : d.id.val ≠ x) :
    d ∈ subs' := by
  rcases ha with ⟨r, hr, -, rfl⟩ | ⟨-, id, -, rfl⟩
  · exact hr.into.mem_write_of_ne hd (fun he => hne (he ▸ hr.id)) _
  · exact List.mem_append_left _ hd

private theorem sysInvariant_admitted (h : SysInvariant k s) {fd : ℕ} {p : Packet} {server : Server}
    (free : fd ∉ s.opened) (room : s.server.svFds.count < backlogMax)
    (subs : Admitted s.server.subs fd p.text server.subs)
    (svFds : server.svFds =
      { s.server.svFds with entries := s.server.svFds.entries ++ [⟨fd, pollin⟩] }) :
    SysInvariant k ⟨server, fd :: s.opened, ⟨s.admitted.length, fd, p.text⟩ :: s.admitted,
      s.live ++ [⟨s.admitted.length, fd, p.text⟩]⟩ := by
  have hnew := h.id_notMem_of_admitted subs
  have hfd : fd ∉ s.live.map Connection.fd := by
    intro hmem
    obtain ⟨c, hc, he⟩ := List.mem_map.mp hmem
    exact free (he ▸ h.liveOpened c hc)
  obtain ⟨h0, htcp, hudp⟩ := h.basicOpened
  refine ⟨?_, ?_, ?_, ?_, ?_, ?_, ids_of_admitted h.ids subs, ?_, ?_, ?_, ?_⟩
  · rw [svFds]
    exact h.table.add room _
  · rw [svFds, h.entries]
    simp [Connection.entry]
  · simpa using h.liveFds.concat hfd
  · intro c hc
    rcases List.mem_append.mp hc with hc | hc
    · exact List.mem_cons_of_mem _ (h.liveOpened c hc)
    · obtain rfl := List.mem_singleton.mp hc
      exact List.mem_cons_self
  · intro c hc
    rcases List.mem_append.mp hc with hc | hc
    · exact h.liveFresh c hc
    · obtain rfl := List.mem_singleton.mp hc
      have hne {n : ℕ} (hn : n ∈ s.opened) : fd ≠ n := fun he => free (he ▸ hn)
      exact ⟨hne h0, hne htcp, hne hudp⟩
  · exact ⟨List.mem_cons_of_mem _ h0, List.mem_cons_of_mem _ htcp, List.mem_cons_of_mem _ hudp⟩
  · simpa using h.liveIds.concat hnew
  · intro c hc
    rcases List.mem_append.mp hc with hc | hc
    · obtain ⟨d, hd, hid, hrest⟩ := h.records c hc
      refine ⟨d, mem_of_admitted subs hd ?_, hid, hrest⟩
      rw [hid]
      exact fun he => hnew (he ▸ List.mem_map_of_mem hc)
    · obtain rfl := List.mem_singleton.mp hc
      exact exists_record_of_admitted subs
  · intro c hc
    rcases List.mem_append.mp hc with hc | hc
    · have hne : ¬ p.text = c.id := fun he => hnew (he ▸ List.mem_map_of_mem hc)
      rw [List.find?_cons_of_neg (by simpa using hne)]
      exact h.lastAdmitted c hc
    · obtain rfl := List.mem_singleton.mp hc
      exact List.find?_cons_of_pos (by simp)
  · intro c hc
    rcases List.mem_append.mp hc with hc | hc
    · have hne : ¬ fd = c.fd := fun he => hfd (he ▸ List.mem_map_of_mem hc)
      rw [List.find?_cons_of_neg (by simpa using hne)]
      exact h.lastOnFd c hc
    · obtain rfl := List.mem_singleton.mp hc
      exact List.find?_cons_of_pos (by simp)

private theorem sysInvariant_request (h : SysInvariant k s) {c : Connection} {r : SubRef}
    {action : UInt8} {topic : Bytes} {server : Server}
    (found : getSubscriberByFd s.server.subs c.fd = some r) (hact : action ≠ shutdownClose)
    (subs : server.subs = r.write (actOn action topic r.sub))
    (svFds : server.svFds = s.server.svFds) : SysInvariant k { s with server := server } := by
  obtain ⟨hinto, hfd, hfirst⟩ := getSubscriberByFd_eq_some.mp found
  refine ⟨svFds ▸ h.table, svFds ▸ h.entries, h.liveFds, h.liveOpened, h.liveFresh,
    h.basicOpened, ?_, h.liveIds, ?_, h.lastAdmitted, h.lastOnFd⟩
  · rw [subs, hinto.map_id_write (actOn_id _ _ _)]
    exact h.ids
  · intro d hd
    obtain ⟨e, he, hid, hefd, hon⟩ := h.records d hd
    by_cases hsame : e = r.sub
    · refine ⟨actOn action topic r.sub, ?_, ?_, ?_, ?_⟩
      · rw [subs]
        exact SubRef.mem_write.mpr (.inr (.inl rfl))
      · rw [actOn_id, ← hsame, hid]
      · rw [actOn_fd, ← hsame, hefd]
      · rw [actOn_online hact, ← hsame, hon]
    · exact ⟨e, subs ▸ hinto.mem_write_of_ne he hsame _, hid, hefd, hon⟩

/-- A shutdown may take the flag of a record whose connection is long closed, but never the
flag of another live connection: that one has another descriptor. -/
theorem sysInvariant_shutdown (h : SysInvariant k s) {before behind : List Connection}
    {c : Connection} {r : SubRef} {server : Server} (live : s.live = before ++ c :: behind)
    (found : getSubscriberByFd s.server.subs c.fd = some r)
    (subs : server.subs = r.write { r.sub with online := false })
    (svFds : server.svFds = { s.server.svFds with
      entries := basicEntries k ++ (before ++ behind).map Connection.entry }) :
    SysInvariant k
      ⟨server, s.opened.filter (· ≠ c.fd), s.admitted, before ++ behind⟩ := by
  obtain ⟨hinto, hfd, -⟩ := getSubscriberByFd_eq_some.mp found
  have hsub : (before ++ behind).Sublist s.live := live ▸ remaining_sublist
  have hmem {d : Connection} (hd : d ∈ before ++ behind) : d ∈ s.live := hsub.subset hd
  have hother {d : Connection} (hd : d ∈ before ++ behind) : d.fd ≠ c.fd :=
    fd_ne_of_remaining (live ▸ h.liveFds) hd
  obtain ⟨h0, htcp, hudp⟩ := h.basicOpened
  obtain ⟨hc0, hctcp, hcudp⟩ := h.liveFresh c (by simp [live])
  have hkeep {fd : ℕ} (ho : fd ∈ s.opened) (hne : fd ≠ c.fd) :
      fd ∈ s.opened.filter (· ≠ c.fd) := List.mem_filter.mpr ⟨ho, by simpa using hne⟩
  refine ⟨?_, svFds ▸ rfl, h.liveFds.sublist (hsub.map _), ?_, fun d hd => h.liveFresh d (hmem hd),
    ⟨hkeep h0 (Ne.symm hc0), hkeep htcp (Ne.symm hctcp), hkeep hudp (Ne.symm hcudp)⟩, ?_,
    h.liveIds.sublist (hsub.map _), ?_, fun d hd => h.lastAdmitted d (hmem hd),
    fun d hd => h.lastOnFd d (hmem hd)⟩
  · rw [svFds]
    refine ⟨h.table.capacity, h.table.block, ?_⟩
    have hroom := h.table.room
    have hle := hsub.length_le
    rw [SvFds.count, h.entries, List.length_append, List.length_map] at hroom
    change (basicEntries k ++ (before ++ behind).map Connection.entry).length ≤ backlogMax
    rw [List.length_append, List.length_map]
    omega
  · intro d hd
    exact hkeep (h.liveOpened d (hmem hd)) (hother hd)
  · have hids := hinto.map_id_write (x := { r.sub with online := false }) rfl
    exact subs ▸ hids ▸ h.ids
  · intro d hd
    obtain ⟨e, he, hid, hefd, hon⟩ := h.records d (hmem hd)
    refine ⟨e, subs ▸ hinto.mem_write_of_ne he ?_ _, hid, hefd, hon⟩
    rintro rfl
    exact hother hd (hefd.symm.trans hfd)

theorem sysInvariant_outcome (h : SysInvariant k s) {e : Event} {effects : List Effect}
    (ho : Outcome k s e s' effects) : SysInvariant k s' := by
  cases ho with
  | refused line free record online subs svFds =>
    obtain ⟨h0, htcp, hudp⟩ := h.basicOpened
    exact ⟨svFds ▸ h.table, svFds ▸ h.entries, h.liveFds,
      fun c hc => List.mem_cons_of_mem _ (h.liveOpened c hc), h.liveFresh,
      ⟨List.mem_cons_of_mem _ h0, List.mem_cons_of_mem _ htcp, List.mem_cons_of_mem _ hudp⟩,
      subs ▸ h.ids, h.liveIds, subs ▸ h.records, h.lastAdmitted, h.lastOnFd⟩
  | admitted line free room subs svFds => exact sysInvariant_admitted h free room subs svFds
  | request live found action text held subs svFds =>
    exact sysInvariant_request h found action subs svFds
  | shutdown line live found action subs svFds =>
    exact sysInvariant_shutdown h live found subs svFds
  | datagram subs svFds built opened =>
    exact ⟨svFds ▸ h.table, svFds ▸ h.entries, h.liveFds, h.liveOpened, h.liveFresh,
      h.basicOpened, subs ▸ h.ids, h.liveIds, subs ▸ h.records, h.lastAdmitted, h.lastOnFd⟩

theorem sysInvariant_step {e : Event} {effects : List Effect} (h : SysInvariant k s)
    (hs : step s e = .ok (s', effects)) : SysInvariant k s' :=
  sysInvariant_outcome h (outcome_of_step h hs)

theorem sysInvariant_reachable (h : Reachable step (start k) s) : SysInvariant k s :=
  h.invariant (sysInvariant_start k) (fun _ _ _ _ => sysInvariant_step)

end MessageBroker.ServerRuns
