import MessageBroker.BrokenPipes
import MessageBroker.ClientTable

/-!
# Which descriptors are open

Descriptors come from `accept` and are closed by `handle_shutdown_sub` and at the exit of
the server. The array mirrors those of the admitted connections, and at the exit each of
them is told as long as no peer has reset; the descriptor of a refused connection is in no
table and is never closed.
-/
namespace MessageBroker.DescriptorLifetimes
open ByteStrings WireFormat ServerStops PollArray SubscriberRecords Notification
open ServerHandlers HandlerOutcomes ServerRuns TransitionRuns BrokenPipes ClientTable

variable {k : Sockets} {s s' : Sys} {w : Wire}

/-- The descriptors admitted and not yet closed by SHUTDOWN_CLOSE, in the order of their
admission. A refused connection is sent something. -/
def track (fds : List ℕ) : Event × List Effect → List ℕ
  | (.connect fd _ _, effects) => if sends effects = [] then fds ++ [fd] else fds
  | (.packet _ fd p, _) => if p.action = shutdownClose then fds.filter (· ≠ fd) else fds
  | (.datagram _ _ _, _) => fds

theorem clientFds_step (h : SysInvariant k s) {e : Event} {effects : List Effect}
    (hs : step s e = .ok (s', effects)) :
    clientFds s'.server = track (clientFds s.server) (e, effects) := by
  have ho := outcome_of_step h hs
  have h' := sysInvariant_outcome h ho
  rw [h'.clientFds_eq, h.clientFds_eq]
  cases ho with
  | refused line free record online subs svFds => rfl
  | admitted line free room subs svFds => exact List.map_append
  | request live found action text held subs svFds => exact (if_neg action).symm
  | @shutdown _ p before behind c r server line live found action subs svFds =>
    rw [track, if_pos action, List.filter_map]
    have hgone : s.live.filter (fun d => d.fd ≠ c.fd) = before ++ behind := by
      rw [live]
      exact filter_fd_ne (live ▸ h.liveFds)
    exact (congrArg (List.map Connection.fd) hgone).symm
  | datagram subs svFds built opened => rfl

/-- The exits of `handle_shutdown_sub`. -/
def shutdownDies : List String :=
  ["get sub failed in handle shutdown!\n", "get poll struc by fd failed in handle shutdown!\n"]

private theorem not_shutdownDies (h : SysInvariant k s) {e : Event} {msg : String}
    (hs : step s e = .error (.stopped (.die msg))) : msg ∉ shutdownDies := by
  rcases stepCases h e with ⟨hi, -⟩ | ⟨-, why, hw, hwhy⟩ | ⟨-, t, fx, ht, -⟩
  · rw [hi] at hs
    cases hs
  · rw [hw] at hs
    cases hs
    cases hwhy with
    | connect noDie cannot => cases noDie
    | malformed noDie bad => cases noDie
    | notSubscribed found action text absent => simp [shutdownDies]
    | datagram noDie bad => cases noDie
  · rw [ht] at hs
    cases hs

/-- What `shutdown_server` does to a client. -/
def farewell (fd : ℕ) : List Effect :=
  [.send fd [shutdownClose, 0, 0, 0, 0], .shutdown fd, .close fd]

private theorem shutdownClient_eq (sv : Server) (fd : ℕ) :
    ∃ sv', sv.shutdownClient fd = (sv', farewell fd) ∧ sv'.svFds = sv.svFds := by
  have hframe : frame ((Memory.store (fun _ => 0) 0 [shutdownClose]).store 1 (le32 0)) =
      [shutdownClose, 0, 0, 0, 0] := by decide +kernel
  refine ⟨{ sv with buff := (Memory.store (fun _ => 0) 0 [shutdownClose]).store 1 (le32 0) },
    ?_, rfl⟩
  rw [Server.shutdownClient, show sv.clearBuffer.buff = fun _ => 0 from rfl, hframe]
  rfl

private theorem shutdownClients_eq (sv : Server) (es : List Pollfd) :
    ∃ sv', sv.shutdownClients es = (sv', (es.map Pollfd.fd).flatMap farewell) ∧
      sv'.svFds = sv.svFds := by
  induction es generalizing sv with
  | nil => exact ⟨sv, rfl, rfl⟩
  | cons e es ih =>
    obtain ⟨sv₁, h₁, hfds₁⟩ := shutdownClient_eq sv e.fd
    obtain ⟨sv₂, h₂, hfds₂⟩ := ih sv₁
    refine ⟨sv₂, ?_, hfds₂.trans hfds₁⟩
    rw [Server.shutdownClients, h₁]
    simp only [h₂, List.map_cons, List.flatMap_cons]

theorem shutdownServer_effects (h : SysInvariant k s) : s.server.shutdownServer.2 =
    (clientFds s.server).flatMap farewell ++
      [.shutdown k.tcpSock, .close k.tcpSock, .shutdown k.udpSock, .close k.udpSock] := by
  obtain ⟨sv', heq, hfds⟩ := shutdownClients_eq s.server (s.server.svFds.entries.drop 3)
  have hentries : sv'.svFds.entries = basicEntries k ++ s.live.map Connection.entry := by
    rw [hfds, h.entries]
  simp only [Server.shutdownServer, heq, hentries]
  rfl

private theorem sends_farewells (fds : List ℕ) (rest : List Effect) :
    sends (fds.flatMap farewell ++ rest) =
      fds.map (fun fd => (fd, [shutdownClose, 0, 0, 0, 0])) ++ sends rest := by
  induction fds with
  | nil => rfl
  | cons fd fds ih =>
    rw [List.flatMap_cons, List.append_assoc, List.map_cons, List.cons_append, ← ih]
    rfl

theorem perform_farewells {fds opened : List ℕ} (hnodup : fds.Nodup) (hopen : fds ⊆ opened)
    (rest : List Effect) : perform opened (fds.flatMap farewell ++ rest) =
      perform (opened.filter (· ∉ fds)) rest := by
  induction fds generalizing opened with
  | nil => simp
  | cons fd fds ih =>
    obtain ⟨hnew, hnodup⟩ := List.nodup_cons.mp hnodup
    obtain ⟨hfd, hopen⟩ := List.cons_subset.mp hopen
    have hstill : fds ⊆ opened.filter (· ≠ fd) := by
      intro n hn
      exact List.mem_filter.mpr ⟨hopen hn, decide_eq_true (fun he => hnew (he ▸ hn))⟩
    have hfirst : perform opened ((fd :: fds).flatMap farewell ++ rest) =
        perform (opened.filter (· ≠ fd)) (fds.flatMap farewell ++ rest) := by
      simp [farewell, perform, hfd]
    rw [hfirst, ih hnodup hstill, List.filter_filter]
    congr 2
    funext n
    simp [Bool.and_comm]

/-- The connections in front of the first reset one are told. -/
theorem carriedOut_farewells (reset fds : List ℕ) {rest : List Effect} (hrest : sends rest = []) :
    carriedOut reset (fds.flatMap farewell ++ rest) =
      (fds.takeWhile (· ∉ reset)).flatMap farewell ++
        if ∀ fd ∈ fds, fd ∉ reset then rest else [] := by
  induction fds with
  | nil =>
    have hnone (e : Effect) (he : e ∈ rest) : ∀ fd frame, e ≠ .send fd frame := by
      rintro fd frame rfl
      have hsent : (fd, frame) ∈ sends rest := List.mem_filterMap.mpr ⟨_, he, rfl⟩
      rw [hrest] at hsent
      cases hsent
    have hall : carriedOut reset rest = rest := by
      apply List.takeWhile_eq_self_iff.mpr
      intro e he
      cases e with
      | send fd frame => exact absurd rfl (hnone _ he fd frame)
      | shutdown fd => rfl
      | close fd => rfl
      | print line => rfl
    simpa using hall
  | cons fd fds ih =>
    by_cases hfd : fd ∈ reset
    · simp [carriedOut, farewell, hfd]
    · have hfirst : carriedOut reset ((fd :: fds).flatMap farewell ++ rest) =
          farewell fd ++ carriedOut reset (fds.flatMap farewell ++ rest) := by
        simp [carriedOut, farewell, hfd]
      rw [hfirst, ih, List.takeWhile_cons_of_pos (by simpa using hfd), List.flatMap_cons,
        List.append_assoc]
      simp [hfd]

theorem sends_carriedOut (h : SysInvariant k s) (reset : List ℕ) :
    sends (carriedOut reset s.server.shutdownServer.2) =
      ((clientFds s.server).takeWhile (· ∉ reset)).map
        (fun fd => (fd, [shutdownClose, 0, 0, 0, 0])) := by
  rw [shutdownServer_effects h, carriedOut_farewells reset _ (by rfl), sends_farewells]
  split_ifs
  · exact List.append_nil _
  · exact List.append_nil _

/-- `shutdown_server` sends one empty SHUTDOWN_CLOSE on each connection of the array and nothing
else, and it closes each of them. -/
structure SaysFarewell (w : Wire) : Prop where
  told : sends (carriedOut w.reset w.sys.server.shutdownServer.2) =
    (clientFds w.sys.server).map (fun fd => (fd, [shutdownClose, 0, 0, 0, 0]))
  closed : ∃ opened,
    perform w.sys.opened (carriedOut w.reset w.sys.server.shutdownServer.2) = .ok opened ∧
      ∀ fd ∈ clientFds w.sys.server,
        .close fd ∈ carriedOut w.reset w.sys.server.shutdownServer.2 ∧ fd ∉ opened

private theorem saysFarewell_iff (h : SysInvariant k w.sys) :
    SaysFarewell w ↔ ∀ fd ∈ clientFds w.sys.server, fd ∉ w.reset := by
  constructor
  · intro hsays fd hfd
    have hlen := congrArg List.length ((sends_carriedOut h w.reset).symm.trans hsays.told)
    rw [List.length_map, List.length_map] at hlen
    have hall := (List.takeWhile_prefix (· ∉ w.reset)).eq_of_length hlen
    exact of_decide_eq_true (List.takeWhile_eq_self_iff.mp hall fd hfd)
  · intro hno
    have hall : (clientFds w.sys.server).takeWhile (· ∉ w.reset) = clientFds w.sys.server :=
      List.takeWhile_eq_self_iff.mpr (fun fd hfd => decide_eq_true (hno fd hfd))
    have hnodup : (clientFds w.sys.server).Nodup := h.clientFds_eq ▸ h.liveFds
    have hopen : clientFds w.sys.server ⊆ w.sys.opened := by
      intro fd hfd
      rw [h.clientFds_eq] at hfd
      obtain ⟨c, hc, rfl⟩ := List.mem_map.mp hfd
      exact h.liveOpened c hc
    refine ⟨by rw [sends_carriedOut h, hall], ?_⟩
    rw [shutdownServer_effects h, carriedOut_farewells w.reset _ (by rfl), hall, if_pos hno,
      perform_farewells hnodup hopen]
    refine ⟨_, rfl, ?_⟩
    intro fd hfd
    constructor
    · apply List.mem_append_left
      exact List.mem_flatMap.mpr ⟨fd, hfd, by simp [farewell]⟩
    · intro hmem
      have hleft := (List.mem_filter.mp (List.mem_filter.mp (List.mem_filter.mp hmem).1).1).2
      exact of_decide_eq_true hleft hfd

def trackWire (fds : List ℕ) : WireEvent × List Effect → List ℕ
  | (.server e, effects) => track fds (e, effects)
  | (.reset _, _) => fds

private theorem clientFds_wireStep (h : SysInvariant k w.sys) {w' : Wire} {e : WireEvent}
    {effects : List Effect} (hs : wireStep w e = .ok (w', effects)) :
    clientFds w'.sys.server = trackWire (clientFds w.sys.server) (e, effects) := by
  rcases wireStep_cases hs with ⟨fd, rfl, hsame, -⟩ | ⟨e', rfl, hstep, -⟩
  · rw [hsame]
    rfl
  · exact clientFds_step h hstep

/-- In every run the array holds the basic descriptors and those of the admitted connections, and
`shutdown_server` tells and closes each of these exactly if none of them has been reset. -/
theorem table_mirrors_connections {events : List WireEvent} {effects : List (List Effect)}
    (hr : run wireStep (wireStart k) events = .ok (w, effects)) :
    w.sys.server.svFds.entries.take 3 = basicEntries k ∧
    clientFds w.sys.server = (events.zip effects).foldl trackWire [] ∧
    (clientFds w.sys.server).Nodup ∧
    (∀ e msg, step w.sys e = .error (.stopped (.die msg)) → msg ∉ shutdownDies) ∧
    (SaysFarewell w ↔ ∀ fd ∈ clientFds w.sys.server, fd ∉ w.reset) := by
  have h := sysInvariant_wire ⟨events, effects, hr⟩
  have hfold : clientFds w.sys.server =
      (events.zip effects).foldl trackWire (clientFds (wireStart k).sys.server) :=
    run_foldl (I := fun v => SysInvariant k v.sys) (f := fun v => clientFds v.sys.server)
      (fun _ _ _ _ h hs => sys_of_wireStep (fun _ _ _ _ => sysInvariant_step) h hs)
      (fun _ _ _ _ h hs => clientFds_wireStep h hs) (sysInvariant_start k) hr
  refine ⟨?_, hfold, h.clientFds_eq ▸ h.liveFds, fun e msg => not_shutdownDies h,
    saysFarewell_iff h⟩
  rw [h.entries]
  rfl

/-- `B` is refused on a new descriptor, `A` leaves in front of `B`, and `C` takes its descriptor. -/
theorem table_mirrors_connections_reused : ∃ w effects, run wireStep (wireStart sampleSockets)
    [.server (joins 5 'A'), .server (joins 6 'B'), .server (joins 7 'B'), .reset 5,
      .server (leaves 5), .server (joins 5 'C'), .server (leaves 6), .server (joins 6 'A')] =
      .ok (w, effects) ∧
    clientFds w.sys.server = [5, 6] ∧ SaysFarewell w := by
  have hrun : completesIn wireStep (fun w _ => clientFds w.sys.server = [5, 6] ∧ w.reset = [])
      (wireStart sampleSockets) [.server (joins 5 'A'), .server (joins 6 'B'), .server (joins 7 'B'),
        .reset 5, .server (leaves 5), .server (joins 5 'C'), .server (leaves 6),
        .server (joins 6 'A')] = true := by decide +kernel
  obtain ⟨w, effects, hr, ht⟩ := exists_run_of_completesIn hrun
  obtain ⟨hfds, hreset⟩ := of_decide_eq_true ht
  refine ⟨w, effects, hr, hfds, ?_⟩
  apply (table_mirrors_connections hr).2.2.2.2.mpr
  rw [hreset]
  exact fun _ _ => List.not_mem_nil

/-- `A` closes its end and answers a notification with a reset: at the exit the server ends before
`B` is told. -/
theorem farewell_fails_on_reset : ∃ w effects, run wireStep (wireStart sampleSockets)
      [.server (joins 5 'A'), .server (subscribes 5 'p'), .server (joins 6 'B'),
        .server (publishes 'p'), .reset 5] = .ok (w, effects) ∧
    clientFds w.sys.server = [5, 6] ∧
    sends (carriedOut w.reset w.sys.server.shutdownServer.2) = [] ∧ ¬ SaysFarewell w := by
  have hrun : completesIn wireStep (fun w _ => clientFds w.sys.server = [5, 6] ∧
      sends (carriedOut w.reset w.sys.server.shutdownServer.2) = []) (wireStart sampleSockets)
      [.server (joins 5 'A'), .server (subscribes 5 'p'), .server (joins 6 'B'),
        .server (publishes 'p'), .reset 5] = true := by decide +kernel
  obtain ⟨w, effects, hr, ht⟩ := exists_run_of_completesIn hrun
  obtain ⟨hfds, hsends⟩ := of_decide_eq_true ht
  refine ⟨w, effects, hr, hfds, hsends, ?_⟩
  intro hsays
  have htold := hsays.told
  rw [hsends, hfds] at htold
  cases htold

/-- The descriptors from `accept` that are not closed. -/
def acceptedOpen (k : Sockets) (s : Sys) : List ℕ := s.opened.filter (· ∉ (start k).opened)

def NoLeak (k : Sockets) (s : Sys) : Prop := ∀ fd, fd ∈ acceptedOpen k s ↔ fd ∈ clientFds s.server

/-- The connection is not refused. -/
def KeepsNoLeak (s : Sys) : Event → Prop
  | .connect _ _ p => ∀ r ∈ s.server.subs, r.id.val = p.text → r.online = false
  | .packet _ _ _ => True
  | .datagram _ _ _ => True

instance (s : Sys) : (e : Event) → Decidable (KeepsNoLeak s e)
  | .connect _ _ _ => inferInstanceAs (Decidable (∀ r ∈ s.server.subs, _))
  | .packet _ _ _ => isTrue trivial
  | .datagram _ _ _ => isTrue trivial

/-- The descriptors the server starts with stay open and are not those of connections. -/
structure OpenInvariant (k : Sockets) (s : Sys) : Prop where
  inv : SysInvariant k s
  basic : (start k).opened ⊆ s.opened
  live : ∀ c ∈ s.live, c.fd ∉ (start k).opened

private theorem openInvariant_start (k : Sockets) : OpenInvariant k (start k) :=
  ⟨sysInvariant_start k, List.Subset.refl _, by simp [start]⟩

private theorem openInvariant_step (h : OpenInvariant k s) {e : Event} {effects : List Effect}
    (hs : step s e = .ok (s', effects)) : OpenInvariant k s' := by
  have ho := outcome_of_step h.inv hs
  have h' := sysInvariant_outcome h.inv ho
  cases ho with
  | refused line free record online subs svFds =>
    exact ⟨h', List.subset_cons_of_subset _ h.basic, h.live⟩
  | admitted line free room subs svFds =>
    refine ⟨h', List.subset_cons_of_subset _ h.basic, ?_⟩
    intro c hc
    rcases List.mem_append.mp hc with hc | hc
    · exact h.live c hc
    · obtain rfl := List.mem_singleton.mp hc
      exact fun hbasic => free (h.basic hbasic)
  | request live found action text held subs svFds => exact ⟨h', h.basic, h.live⟩
  | @shutdown _ p before behind c r server line live found action subs svFds =>
    have hsub : before ++ behind ⊆ s.live := live ▸ remaining_sublist.subset
    refine ⟨h', ?_, fun d hd => h.live d (hsub hd)⟩
    intro fd hfd
    have hne : fd ≠ c.fd := fun he => h.live c (by simp [live]) (he ▸ hfd)
    exact List.mem_filter.mpr ⟨h.basic hfd, decide_eq_true hne⟩
  | datagram subs svFds built opened => exact ⟨h', h.basic, h.live⟩

private theorem mem_acceptedOpen {fd : ℕ} :
    fd ∈ acceptedOpen k s ↔ fd ∈ s.opened ∧ fd ∉ (start k).opened := by
  rw [acceptedOpen, List.mem_filter, decide_eq_true_iff]

/-- One step leaks no descriptor exactly if it does not refuse a connection. -/
theorem noLeak_step_iff (h : OpenInvariant k s) (hno : NoLeak k s) {e : Event}
    {effects : List Effect} (hs : step s e = .ok (s', effects)) :
    NoLeak k s' ↔ KeepsNoLeak s e := by
  have htrack := clientFds_step h.inv hs
  have ho := outcome_of_step h.inv hs
  simp only [NoLeak, mem_acceptedOpen] at hno ⊢
  rw [htrack]
  cases ho with
  | @refused fd _ p r server line free record online subs svFds =>
    constructor
    · intro hafter
      have hleft := (hafter fd).mp ⟨List.mem_cons_self, fun hbasic => free (h.basic hbasic)⟩
      exact absurd ((hno fd).mpr hleft).1 free
    · intro hbefore
      rw [hbefore _ record.into.mem record.id] at online
      cases online
  | @admitted fd peer p server line free room subs svFds =>
    constructor
    · intro _ d hd hid
      obtain ⟨r, hr, rfl⟩ := exists_recordOf h.inv hd
      exact Bool.eq_false_iff.mpr (not_online_of_admitted subs (hid ▸ hr))
    · intro _ n
      have hbasic : fd ∉ (start k).opened := fun hb => free (h.basic hb)
      have hjoin : track (clientFds s.server) (.connect fd peer p, [.print line]) =
          clientFds s.server ++ [fd] := rfl
      rw [hjoin, List.mem_append, List.mem_singleton, List.mem_cons, ← hno n]
      constructor
      · rintro ⟨rfl | hn, hb⟩
        · exact .inr rfl
        · exact .inl ⟨hn, hb⟩
      · rintro (⟨hn, hb⟩ | rfl)
        · exact ⟨.inr hn, hb⟩
        · exact ⟨.inl rfl, hbasic⟩
  | request live found action text held subs svFds =>
    rw [track, if_neg action]
    exact ⟨fun _ => trivial, fun _ => hno⟩
  | @shutdown _ p before behind c r server line live found action subs svFds =>
    rw [track, if_pos action]
    refine ⟨fun _ => trivial, ?_⟩
    intro _ n
    rw [List.mem_filter, List.mem_filter, ← hno n]
    exact and_right_comm
  | datagram subs svFds built opened => exact ⟨fun _ => trivial, fun _ => hno⟩

/-- In a run no descriptor is leaked exactly if no connection is refused. -/
theorem noLeak_throughout_iff {events : List Event} {effects : List (List Effect)}
    (hr : run step (start k) events = .ok (s, effects)) :
    Throughout step (NoLeak k) (start k) events ↔ EachStep step KeepsNoLeak (start k) events := by
  have hstart : NoLeak k (start k) := by
    intro fd
    rw [mem_acceptedOpen]
    exact ⟨fun hopen => absurd hopen.1 hopen.2, fun hfd => absurd hfd List.not_mem_nil⟩
  apply throughout_iff_eachStep _ _ hr (openInvariant_start k) hstart
  · intro t e t' fx h hs
    exact openInvariant_step h hs
  · intro t e t' fx h hno hs
    exact noLeak_step_iff h hno hs

/-- `A` is back on its descriptor behind `B`. -/
theorem noLeak_throughout_rejoined : Throughout step (NoLeak sampleSockets) (start sampleSockets)
    [joins 5 'A', joins 6 'B', leaves 5, joins 5 'A'] := by
  have hrun : completesIn step (fun _ _ => true) (start sampleSockets)
      [joins 5 'A', joins 6 'B', leaves 5, joins 5 'A'] = true := by decide +kernel
  obtain ⟨s, effects, hr, -⟩ := exists_run_of_completesIn hrun
  apply (noLeak_throughout_iff hr).mpr
  decide +kernel

/-- The second `A` is refused, and its descriptor stays open. -/
theorem noLeak_fails_on_refusal :
    ∃ s, Reachable step (start sampleSockets) s ∧ ¬ NoLeak sampleSockets s := by
  have hrun : completesIn step (fun s _ => 6 ∈ acceptedOpen sampleSockets s ∧
      6 ∉ clientFds s.server) (start sampleSockets) [joins 5 'A', joins 6 'A'] = true := by
    decide +kernel
  obtain ⟨s, effects, hr, ht⟩ := exists_run_of_completesIn hrun
  obtain ⟨hopen, hout⟩ := of_decide_eq_true ht
  exact ⟨s, ⟨_, effects, hr⟩, fun hno => hout ((hno 6).mp hopen)⟩

end MessageBroker.DescriptorLifetimes
