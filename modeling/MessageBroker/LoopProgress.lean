import MessageBroker.ServiceLoop

/-!
# Progress of the loop

A client with unread bytes is served within one pass more than there are clients in front of
it. But a pass begins only if nothing else is ready, and no turn is taken while `recv` waits for
the rest of a packet.
-/
namespace MessageBroker.LoopProgress
open ByteStrings WireFormat ServerStops PollArray ServerHandlers ServerRuns TransitionRuns
open ClientTable DescriptorLifetimes ServicePass ServiceLoop

variable {k : Sockets} {l l' : Loop} {t : Turn} {r : Report} {s : Sys} {fd : ℕ}

/-- The descriptor whose packet was handled. -/
def requestFd : Report → Option ℕ
  | .handled (.packet _ fd _) _ => some fd
  | _ => none

def passes : Report → ℕ
  | .passBegins => 1
  | _ => 0

def place (l : Loop) (fd : ℕ) : ℕ := (clientFds l.server).idxOf fd

instance (revents : List ℕ) (i : ℕ) : Decidable (Flagged revents i) :=
  inferInstanceAs (Decidable (_ ≠ _))

/-- The passes that begin until the client is served. One that is flagged and still in front of the
index is served in this pass, unless an entry in front of it is removed and it moves up. -/
def wait (l : Loop) (fd : ℕ) : ℕ :=
  match l.phase with
  | .serving i revents _ =>
    if i ≤ 3 + place l fd ∧ Flagged revents (3 + place l fd) then place l fd else place l fd + 1
  | _ => place l fd + 1

private theorem wait_le (l : Loop) (fd : ℕ) : wait l fd ≤ place l fd + 1 := by
  rw [wait]
  split
  · split_ifs <;> omega
  · exact Nat.le_refl _

private theorem wait_serving {i : ℕ} {revents : List ℕ} {cleared : Bool}
    (h : l.phase = .serving i revents cleared) : wait l fd =
      if i ≤ 3 + place l fd ∧ Flagged revents (3 + place l fd) then place l fd
      else place l fd + 1 := by
  simp only [wait, h]

private theorem wait_polling (h : l.phase = .polling) : wait l fd = place l fd + 1 := by
  simp only [wait, h]

private theorem wait_admitting {new : ℕ} {peer : SockAddrIn} (h : l.phase = .admitting new peer) :
    wait l fd = place l fd + 1 := by
  simp only [wait, h]

/-- The client has an entry, and `poll` flags it. -/
structure Awaits (l : Loop) (fd : ℕ) : Prop where
  client : fd ∈ clientFds l.server
  ready : Loop.readable (l.sockets fd) = true

/-- What is read from other connections leaves this one as it is. -/
theorem sockets_of_moves (h : Follows k l s) {heap : Memory} (hm : Moves l heap l' r)
    (client : fd ∈ clientFds l.server) (hr : requestFd r ≠ some fd) :
    l'.sockets fd = l.sockets fd := by
  have hopen : fd ∈ l.opened := by
    rw [h.server, h.inv.clientFds_eq] at client
    obtain ⟨c, hc, rfl⟩ := List.mem_map.mp client
    exact h.opened ▸ h.inv.liveOpened c hc
  cases hm with
  | exits phase stdin told => rfl
  | @accepts new peer socket backlog phase stdin front free =>
    have hne : fd ≠ new := fun he => free (he ▸ hopen)
    exact Function.update_of_ne hne _ _
  | takes phase stdin backlog front handled told => rfl
  | begins phase stdin backlog datagrams client ready => rfl
  | @admits new peer p rest server retId effects opened phase front handled told =>
    have free := h.phase
    rw [PhaseInvariant, phase] at free
    have hne : fd ≠ new := fun he => free (he ▸ hopen)
    exact Function.update_of_ne hne _ _
  | @serves i other revents cleared p rest server effects opened phase lt flagged entry front =>
    have hne : fd ≠ other := by
      rintro rfl
      exact hr rfl
    exact Function.update_of_ne hne _ _
  | passes phase lt unflagged => rfl
  | completes phase ge => rfl

private theorem readable_push {socket socket' : Socket} {seg : Segment}
    (h : socket.push seg = some socket') (hready : Loop.readable socket = true) :
    Loop.readable socket' = true := by
  rw [Loop.readable, Bool.or_eq_true, Bool.not_eq_true', List.isEmpty_eq_false_iff] at *
  cases seg with
  | data bs =>
    rw [Socket.push] at h
    split_ifs at h
    cases h
    exact hready.imp_left (fun hne => List.append_ne_nil_of_left_ne_nil hne bs)
  | fin =>
    rw [Socket.push] at h
    split_ifs at h
    cases h
    exact .inr rfl

/-- What arrives on a connection is pushed behind what is there. -/
theorem sockets_arrive {a : Arrival} (h : l.arrive a = some l') (fd : ℕ) :
    l'.sockets fd = l.sockets fd ∨ ∃ seg, a = .segment (.accepted fd) seg ∧
      (l.sockets fd).push seg = some (l'.sockets fd) := by
  cases a with
  | typed =>
    cases h
    exact .inl rfl
  | connects peer =>
    cases h
    exact .inl rfl
  | datagram src data =>
    cases h
    exact .inl rfl
  | segment place seg =>
    rcases segment_cases h with ⟨j, peer, socket, socket', -, -, -, rfl⟩ |
      ⟨fd', socket', rfl, -, hpush, rfl⟩
    · exact .inl rfl
    · by_cases hfd : fd = fd'
      · subst hfd
        right
        refine ⟨seg, rfl, hpush.trans (congrArg some ?_)⟩
        exact (Function.update_self fd socket' l.sockets).symm
      · exact .inl (Function.update_of_ne hfd _ _)

theorem loopStep_cases (hs : loopStep l t = .ok (l', r)) :
    (∃ a, t = .arrival a ∧ l.arrive a = some l' ∧ r = .quiet) ∨
      ∃ fd heap, t = .server fd heap ∧ Moves l heap l' r := by
  cases t with
  | arrival a =>
    rw [loopStep] at hs
    split at hs
    · rename_i l₁ ha
      cases hs
      exact .inl ⟨a, rfl, ha, rfl⟩
    · cases hs
  | server fd heap => exact .inr ⟨fd, heap, rfl, moves_of_turn hs⟩

/-- Only its own packet can take a client out of the table. -/
theorem mem_track {fds : List ℕ} {q : Event × List Effect} (hmem : fd ∈ fds)
    (hr : requestFd (.handled q.1 q.2) ≠ some fd) : fd ∈ track fds q := by
  obtain ⟨e, effects⟩ := q
  cases e with
  | connect new peer p =>
    rw [track]
    split_ifs
    · exact List.mem_append_left _ hmem
    · exact hmem
  | packet first other p =>
    rw [track]
    split_ifs
    · refine List.mem_filter.mpr ⟨hmem, decide_eq_true ?_⟩
      rintro rfl
      exact hr rfl
    · exact hmem
  | datagram src data heap => exact hmem

private theorem handled_of_event {q : Event × List Effect} (h : r.event = some q) :
    r = .handled q.1 q.2 := by
  cases r with
  | handled e effects =>
    cases h
    rfl
  | quiet => cases h
  | passBegins => cases h
  | exits effects => cases h

private theorem client_step (h : Follows k l s) (hmem : fd ∈ clientFds l.server)
    (hs : loopStep l t = .ok (l', r)) (hr : requestFd r ≠ some fd) :
    fd ∈ clientFds l'.server := by
  rw [clientFds_loopStep h hs]
  cases he : r.event with
  | none => exact hmem
  | some q => exact mem_track hmem (handled_of_event he ▸ hr)

private theorem awaits_step (h : Follows k l s) (ha : Awaits l fd) (hs : loopStep l t = .ok (l', r))
    (hr : requestFd r ≠ some fd) : Awaits l' fd := by
  constructor
  · exact client_step h ha.client hs hr
  · rcases loopStep_cases hs with ⟨a, -, harrive, -⟩ | ⟨new, heap, -, hm⟩
    · rcases sockets_arrive harrive fd with hsame | ⟨seg, -, hpush⟩
      · rw [hsame]
        exact ha.ready
      · exact readable_push hpush ha.ready
    · rw [sockets_of_moves h hm ha.client hr]
      exact ha.ready

/-- Every pass that begins takes the client one place nearer to being served, whoever leaves. -/
theorem wait_step (h : Follows k l s) (ha : Awaits l fd) (hs : loopStep l t = .ok (l', r))
    (hr : requestFd r ≠ some fd) : passes r + wait l' fd ≤ wait l fd := by
  have hfds := clientFds_loopStep h hs
  have hsame (he : clientFds l'.server = clientFds l.server) : place l' fd = place l fd := by
    rw [place, place, he]
  rcases loopStep_cases hs with ⟨a, -, harrive, rfl⟩ | ⟨new, heap, -, hm⟩
  · obtain ⟨hphase, hserver, -⟩ := arrive_globals harrive
    rw [wait, wait, hphase, hsame (congrArg clientFds hserver)]
    exact (Nat.zero_add _).le
  · cases hm with
    | exits phase stdin told =>
      rw [wait_polling phase]
      exact (Nat.zero_add _).trans_le (wait_le _ fd)
    | accepts phase stdin front free =>
      rw [wait_polling phase]
      exact (Nat.zero_add _).trans_le (wait_le _ fd)
    | takes phase stdin backlog front handled told =>
      rw [wait_polling phase, ← hsame hfds]
      exact (Nat.zero_add _).trans_le (wait_le _ fd)
    | begins phase stdin backlog datagrams client ready =>
      have hplace : (clientFds l.server)[place l fd]? = some fd :=
        List.getElem?_idxOf ha.client
      have hflag : Flagged l.poll (3 + place l fd) := by
        rw [Flagged, poll_getD hplace]
        exact (flag_and_pollin _).mpr ha.ready
      rw [wait_polling phase, wait_serving rfl, hsame rfl,
        if_pos ⟨Nat.le_add_right 3 _, hflag⟩]
      exact (Nat.add_comm 1 _).le
    | @admits new peer p rest server retId effects opened phase front handled told =>
      have hplace : (clientFds server).idxOf fd = place l fd := by
        rw [place, hfds]
        simp only [Report.event, Option.elim, track]
        split_ifs
        · exact List.idxOf_append_of_mem ha.client
        · rfl
      rw [wait_admitting phase, ← hplace]
      exact (Nat.zero_add _).trans_le (wait_le _ fd)
    | @serves i other revents cleared p rest server effects opened phase lt flagged entry front
        handled told =>
      have hne : fd ≠ other := by
        rintro rfl
        exact hr rfl
      obtain ⟨before, behind, hbefore, hidx⟩ := h.split phase lt entry
      have hnodup := h.nodup
      simp only [Report.event, Option.elim, track] at hfds
      by_cases hleaves : p.action = shutdownClose
      · -- the entries behind the one that leaves move up, and the index passes the next
        rw [hbefore] at hnodup
        rw [if_pos hleaves, hbefore, RemovalLoop.filter_ne_append hnodup] at hfds
        rw [wait_serving phase, place, hbefore]
        refine (Nat.add_le_add_left (wait_le _ fd) _).trans ?_
        rw [place, hfds]
        rcases RemovalLoop.idxOf_append_cons before behind hne with ⟨hlt, hplace⟩ | ⟨hge, hplace⟩
        · rw [if_neg (by omega)]
          simp only [passes]
          omega
        · simp only [passes]
          split_ifs <;> omega
      · rw [if_neg hleaves] at hfds
        have hother : i ≠ 3 + place l fd := by
          intro he
          have hplace : (clientFds l.server)[place l fd]? = some fd :=
            List.getElem?_idxOf ha.client
          have hlen : place l fd = before.length := by omega
          rw [hlen, hbefore, List.getElem?_append_right (Nat.le_refl _), Nat.sub_self] at hplace
          exact hne (Option.some.inj hplace).symm
        have hflags : Pass.moveRevents ⟨l.server, revents, fun _ => [], [], []⟩ other p = revents :=
          if_neg hleaves
        rw [wait_serving phase, wait_serving rfl, hsame hfds, hflags]
        simp only [passes]
        split_ifs with hnext hnow hnow
        · omega
        · exact absurd ⟨Nat.le_of_succ_le hnext.1, hnext.2⟩ hnow
        · exact absurd ⟨Nat.lt_of_le_of_ne hnow.1 hother, hnow.2⟩ hnext
        · omega
    | @passes i revents cleared phase lt unflagged =>
      have hother (hflag : Flagged revents (3 + place l fd)) : i ≠ 3 + place l fd := by
        rintro rfl
        exact hflag unflagged
      rw [wait_serving phase, wait_serving rfl, hsame rfl]
      simp only [passes]
      split_ifs with hnext hnow hnow
      · omega
      · exact absurd ⟨Nat.le_of_succ_le hnext.1, hnext.2⟩ hnow
      · exact absurd ⟨Nat.lt_of_le_of_ne hnow.1 (hother hnow.2), hnow.2⟩ hnext
      · omega
    | @completes i revents cleared phase ge =>
      have hlt : place l fd < (clientFds l.server).length :=
        List.idxOf_lt_length_of_mem ha.client
      rw [clientFds_length] at hlt
      rw [wait_serving phase, if_neg (by omega), ← hsame rfl]
      exact (Nat.zero_add _).trans_le (wait_le _ fd)

theorem exists_follows (h : Reachable loopStep (begin k) l) : ∃ s, Follows k l s := by
  obtain ⟨turns, reports, hr⟩ := h
  obtain ⟨s, -, hfollows⟩ := loop_follows_runs hr
  exact ⟨s, hfollows⟩

private theorem wait_run {turns : List Turn} {reports : List Report} (h : Follows k l s)
    (ha : Awaits l fd) (hr : run loopStep l turns = .ok (l', reports))
    (hnone : ∀ r ∈ reports, requestFd r ≠ some fd) :
    Awaits l' fd ∧ (reports.map passes).sum + wait l' fd ≤ wait l fd := by
  have hrun : (∃ s, Follows k l' s ∧ Awaits l' fd) ∧
      (reports.map passes).sum + wait l' fd ≤ wait l fd := by
    refine cost_le_of_potential (I := fun l => ∃ s, Follows k l s ∧ Awaits l fd)
      (f := fun l => wait l fd) ?_ ⟨s, h, ha⟩ hnone hr
    rintro l t l' r ⟨s, h, ha⟩ hother hs
    obtain ⟨s', h'⟩ := exists_follows_step h hs
    exact ⟨⟨s', h', awaits_step h ha hs hother⟩, wait_step h ha hs hother⟩
  obtain ⟨⟨-, -, ha'⟩, hcost⟩ := hrun
  exact ⟨ha', hcost⟩

/-- A client that is ready is served within one pass more than there are clients in front of it,
whatever arrives and whoever leaves meanwhile. -/
theorem served_within {turns : List Turn} {reports : List Report}
    (hreach : Reachable loopStep (begin k) l) (hpolling : l.phase = .polling) (ha : Awaits l fd)
    (hr : run loopStep l turns = .ok (l', reports)) (hdone : l'.phase = .polling)
    (hpasses : place l fd + 1 ≤ (reports.map passes).sum) :
    ∃ r ∈ reports, requestFd r = some fd := by
  by_contra hno
  push Not at hno
  obtain ⟨s, h⟩ := exists_follows hreach
  obtain ⟨-, hcost⟩ := wait_run h ha hr hno
  rw [wait_polling hpolling, wait_polling hdone] at hcost
  omega

/-- `B` is second among three clients, and is served in the second pass. -/
theorem served_within_crowded : ∃ l l' reports, Reachable loopStep (begin sampleSockets) l ∧
    place l 6 = 1 ∧ run loopStep l (List.replicate 8 attend) = .ok (l', reports) ∧
      (reports.map passes).sum = 2 ∧ ∃ r ∈ reports, requestFd r = some 6 := by
  have hrun : completesIn loopStep (fun l _ => l.phase = .polling ∧ place l 6 = 1 ∧
      6 ∈ clientFds l.server ∧ Loop.readable (l.sockets 6) = true ∧
      completesIn loopStep (fun l' reports => l'.phase = .polling ∧ (reports.map passes).sum = 2)
        l (List.replicate 8 attend) = true) (begin sampleSockets) crowded = true := by
    decide +kernel
  obtain ⟨l, before, hr, ht⟩ := exists_run_of_completesIn hrun
  obtain ⟨hpolling, hplace, hclient, hready, hlater⟩ := of_decide_eq_true ht
  obtain ⟨l', reports, hr', ht'⟩ := exists_run_of_completesIn hlater
  obtain ⟨hdone, hsum⟩ := of_decide_eq_true ht'
  have hreach : Reachable loopStep (begin sampleSockets) l := ⟨crowded, before, hr⟩
  refine ⟨l, l', reports, hreach, hplace, hr', hsum, ?_⟩
  exact served_within hreach hpolling ⟨hclient, hready⟩ hr' hdone (by rw [hplace, hsum])

/-- The descriptor the server has to receive from before it does anything else. -/
def receiving (l : Loop) : Option ℕ :=
  match l.phase with
  | .admitting fd _ => some fd
  | .serving i revents _ =>
    if i < l.server.svFds.count ∧ Flagged revents i then
      some (l.server.svFds.entries.getD i default).fd
    else none
  | _ => none

/-- The peer has closed, and what is left of its stream is no packet. -/
structure Gone (l : Loop) (fd : ℕ) : Prop where
  ended : (l.sockets fd).ended = true
  unfinished : frontPacket (l.sockets fd).unread = none

/-- `recv` does not return with a packet. -/
theorem turn_of_receiving (hfd : receiving l = some fd)
    (hfront : frontPacket (l.sockets fd).unread = none) (newFd : ℕ) (heap : Memory) :
    ∃ why, l.turn newFd heap = .error why := by
  have hreceive : ∃ why, l.receive fd = .error why := by
    rw [Loop.receive, hfront]
    dsimp only
    split_ifs
    · exact ⟨_, rfl⟩
    · exact ⟨_, rfl⟩
  obtain ⟨why, hwhy⟩ := hreceive
  refine ⟨why, ?_⟩
  rw [receiving] at hfd
  rw [Loop.turn]
  split at hfd
  · rename_i fd' peer hphase
    cases hfd
    rw [hphase]
    simp only [Loop.receiveConnect, hwhy, error_bind]
  · rename_i i revents cleared hphase
    split_ifs at hfd with hc
    cases hfd
    have hflag : revents.getD i 0 &&& pollin ≠ 0 := hc.2
    rw [hphase]
    simp only [Loop.visit, if_pos hc.1, if_pos hflag, hwhy, error_bind]
  · cases hfd

/-- The server waits in `recv` on a connection. -/
structure Blocked (l₀ : Loop) (fd : ℕ) (l : Loop) : Prop where
  receiving : receiving l = some fd
  socket : l.sockets fd = l₀.sockets fd
  phase : l.phase = l₀.phase
  server : l.server = l₀.server

/-- As long as nothing arrives on the connection the server takes no turn. -/
theorem blocked_step {l₀ : Loop} (hfront : frontPacket (l₀.sockets fd).unread = none)
    (h : Blocked l₀ fd l)
    (hsilent : (l₀.sockets fd).ended = true ∨ ∀ seg, t ≠ .arrival (.segment (.accepted fd) seg))
    (hs : loopStep l t = .ok (l', r)) : Blocked l₀ fd l' ∧ r = .quiet := by
  cases t with
  | arrival a =>
    rw [loopStep] at hs
    split at hs
    · rename_i l₁ ha
      cases hs
      obtain ⟨hphase, hserver, -⟩ := arrive_globals ha
      refine ⟨⟨?_, ?_, hphase.trans h.phase, hserver.trans h.server⟩, rfl⟩
      · have hreceiving := h.receiving
        rw [receiving] at hreceiving ⊢
        rw [hphase, hserver]
        exact hreceiving
      · rcases sockets_arrive ha fd with hsame | ⟨seg, rfl, hpush⟩
        · exact hsame.trans h.socket
        · rcases hsilent with hended | hno
          · rw [h.socket] at hpush
            cases seg with
            | data bs => simp [Socket.push, hended] at hpush
            | fin => simp [Socket.push, hended] at hpush
          · exact absurd rfl (hno seg)
    · cases hs
  | server newFd heap =>
    obtain ⟨why, hwhy⟩ := turn_of_receiving h.receiving (h.socket ▸ hfront) newFd heap
    rw [loopStep, hwhy] at hs
    cases hs

private theorem blocked_run {l₀ : Loop} {turns : List Turn} {reports : List Report}
    (hfront : frontPacket (l₀.sockets fd).unread = none) (h : Blocked l₀ fd l)
    (hsilent : (l₀.sockets fd).ended = true ∨
      ∀ seg, .arrival (.segment (.accepted fd) seg) ∉ turns)
    (hr : run loopStep l turns = .ok (l', reports)) :
    Blocked l₀ fd l' ∧ ∀ r ∈ reports, r = .quiet := by
  let Ahead (l : Loop) (turns : List Turn) : Prop := Blocked l₀ fd l ∧
    ((l₀.sockets fd).ended = true ∨ ∀ seg, .arrival (.segment (.accepted fd) seg) ∉ turns)
  have hstep (l : Loop) (t : Turn) (turns : List Turn) (l' : Loop) (r : Report)
      (h : Ahead l (t :: turns)) (hs : loopStep l t = .ok (l', r)) :
      Ahead l' turns ∧ r = .quiet := by
    obtain ⟨hblocked, hsilent⟩ := h
    have hfirst : (l₀.sockets fd).ended = true ∨
        ∀ seg, t ≠ .arrival (.segment (.accepted fd) seg) :=
      hsilent.imp_right fun hno seg he => hno seg (he ▸ List.mem_cons_self)
    obtain ⟨h', hquiet⟩ := blocked_step hfront hblocked hfirst hs
    exact ⟨⟨h', hsilent.imp_right fun hno seg hmem => hno seg (List.mem_cons_of_mem t hmem)⟩,
      hquiet⟩
  obtain ⟨⟨h', -⟩, hquiet⟩ := outputs_of_ahead hstep ⟨h, hsilent⟩ hr
  exact ⟨h', hquiet⟩

/-- While `recv` waits for the rest of a packet, nothing that arrives elsewhere is looked at: no
connection, no datagram, no other client and no `exit`. At the end of the stream this is for
ever. -/
theorem blocked_while_silent {turns : List Turn} {reports : List Report}
    (hfd : receiving l = some fd) (hfront : frontPacket (l.sockets fd).unread = none)
    (hsilent : (l.sockets fd).ended = true ∨
      ∀ seg, .arrival (.segment (.accepted fd) seg) ∉ turns)
    (hr : run loopStep l turns = .ok (l', reports)) :
    l'.phase = l.phase ∧ l'.server = l.server ∧ ∀ r ∈ reports, r = .quiet := by
  obtain ⟨h', hquiet⟩ := blocked_run hfront ⟨hfd, rfl, rfl, rfl⟩ hsilent hr
  exact ⟨h'.phase, h'.server, hquiet⟩

/-- `A` has been accepted and says nothing; `B`, a datagram and an `exit` wait. -/
theorem blocked_while_silent_admitting : ∃ l l' reports,
    Reachable loopStep (begin sampleSockets) l ∧ l.stdin = true ∧ l.datagrams ≠ [] ∧
      run loopStep l [.arrival .typed] = .ok (l', reports) ∧
        l'.phase = l.phase ∧ l'.server = l.server ∧ ∀ r ∈ reports, r = .quiet := by
  have hrun : completesIn loopStep (fun l _ => receiving l = some 5 ∧
      frontPacket (l.sockets 5).unread = none ∧ l.stdin = true ∧ l.datagrams ≠ [] ∧
      completesIn loopStep (fun _ _ => true) l [.arrival .typed] = true) (begin sampleSockets)
      [.arrival (.connects ⟨4000, samplePort_lt, (127, 0, 0, 1)⟩), .server 5 (fun _ => 0),
        .arrival .typed, .arrival (.datagram ⟨4001, publisherPort_lt, (127, 0, 0, 1)⟩ [])] =
      true := by
    decide +kernel
  obtain ⟨l, before, hr, ht⟩ := exists_run_of_completesIn hrun
  obtain ⟨hfd, hfront, hstdin, hdatagrams, hlater⟩ := of_decide_eq_true ht
  obtain ⟨l', reports, hr', -⟩ := exists_run_of_completesIn hlater
  refine ⟨l, l', reports, ⟨_, before, hr⟩, hstdin, hdatagrams, hr', ?_⟩
  exact blocked_while_silent hfd hfront (.inr (by simp)) hr'

/-- A client whose peer is gone is never served, and it stays in the table. -/
theorem gone_step (h : Follows k l s) (hmem : fd ∈ clientFds l.server) (hg : Gone l fd)
    (hs : loopStep l t = .ok (l', r)) :
    requestFd r ≠ some fd ∧ fd ∈ clientFds l'.server ∧ Gone l' fd := by
  have hother : requestFd r ≠ some fd := by
    rcases loopStep_cases hs with ⟨a, -, -, rfl⟩ | ⟨newFd, heap, -, hm⟩
    · simp [requestFd]
    · cases hm with
      | @serves i other revents cleared p rest server effects opened phase lt flagged entry front =>
        rintro he
        obtain rfl : other = fd := Option.some.inj he
        rw [hg.unfinished] at front
        cases front
      | exits => simp [requestFd]
      | accepts => simp [requestFd]
      | takes => simp [requestFd]
      | begins => simp [requestFd]
      | admits => simp [requestFd]
      | passes => simp [requestFd]
      | completes => simp [requestFd]
  refine ⟨hother, client_step h hmem hs hother, ?_⟩
  have hsame : l'.sockets fd = l.sockets fd := by
    rcases loopStep_cases hs with ⟨a, -, harrive, -⟩ | ⟨newFd, heap, -, hm⟩
    · rcases sockets_arrive harrive fd with hsame | ⟨seg, -, hpush⟩
      · exact hsame
      · cases seg with
        | data bs => simp [Socket.push, hg.ended] at hpush
        | fin => simp [Socket.push, hg.ended] at hpush
    · exact sockets_of_moves h hm hmem hother
  exact ⟨hsame ▸ hg.ended, hsame ▸ hg.unfinished⟩

/-- A subscriber that vanishes without its SHUTDOWN_CLOSE keeps its entry, and at most as many
passes begin from then on as it has clients in front of it and one more. -/
theorem passes_of_gone {turns : List Turn} {reports : List Report}
    (hreach : Reachable loopStep (begin k) l) (hmem : fd ∈ clientFds l.server) (hg : Gone l fd)
    (hr : run loopStep l turns = .ok (l', reports)) :
    fd ∈ clientFds l'.server ∧ Gone l' fd ∧ (reports.map passes).sum ≤ place l fd + 1 := by
  obtain ⟨s, h⟩ := exists_follows hreach
  have hrun : (∃ s, Follows k l' s ∧ fd ∈ clientFds l'.server ∧ Gone l' fd) ∧
      ∀ r ∈ reports, requestFd r ≠ some fd := by
    refine forall_outputs (I := fun l => ∃ s, Follows k l s ∧ fd ∈ clientFds l.server ∧ Gone l fd)
      ?_ ⟨s, h, hmem, hg⟩ hr
    rintro l t l' r ⟨s, h, hmem, hg⟩ hs
    obtain ⟨s', h'⟩ := exists_follows_step h hs
    obtain ⟨hother, hstill, hg'⟩ := gone_step h hmem hg hs
    exact ⟨⟨s', h', hstill, hg'⟩, hother⟩
  obtain ⟨⟨-, -, hstill, hg'⟩, hother⟩ := hrun
  have hready : Loop.readable (l.sockets fd) = true := by
    rw [Loop.readable, hg.ended, Bool.or_true]
  obtain ⟨-, hcost⟩ := wait_run h ⟨hmem, hready⟩ hr hother
  exact ⟨hstill, hg', (Nat.le_of_add_right_le hcost).trans (wait_le l fd)⟩

/-- `B` vanishes, and the first pass reaches it. -/
theorem passes_of_gone_second : ∃ l l' reports, Reachable loopStep (begin sampleSockets) l ∧
    run loopStep l (List.replicate 2 attend) = .ok (l', reports) ∧ receiving l' = some 6 ∧
      6 ∈ clientFds l'.server ∧ Gone l' 6 ∧ (reports.map passes).sum ≤ place l 6 + 1 := by
  have hrun : completesIn loopStep (fun l _ => 6 ∈ clientFds l.server ∧
      (l.sockets 6).ended = true ∧ frontPacket (l.sockets 6).unread = none ∧
      completesIn loopStep (fun l' _ => receiving l' = some 6) l (List.replicate 2 attend) = true)
      (begin sampleSockets)
      (comes 5 'A' ++ comes 6 'B' ++ [.arrival (.segment (.accepted 6) .fin)]) = true := by
    decide +kernel
  obtain ⟨l, before, hr, ht⟩ := exists_run_of_completesIn hrun
  obtain ⟨hclient, hended, hfront, hlater⟩ := of_decide_eq_true ht
  obtain ⟨l', reports, hr', ht'⟩ := exists_run_of_completesIn hlater
  have hreach : Reachable loopStep (begin sampleSockets) l := ⟨_, before, hr⟩
  exact ⟨l, l', reports, hreach, hr', of_decide_eq_true ht',
    passes_of_gone hreach hclient ⟨hended, hfront⟩ hr'⟩

/-- Whenever `poll` returns, a connection or a datagram is there. -/
def Busy (l : Loop) : Turn → Prop
  | .server _ _ => l.phase = .polling → l.backlog ≠ [] ∨ l.datagrams ≠ []
  | .arrival _ => True

instance (l : Loop) : (t : Turn) → Decidable (Busy l t)
  | .server _ _ => inferInstanceAs (Decidable (_ → _))
  | .arrival _ => isTrue trivial

/-- No pass over the clients is going on. -/
def Outside (l : Loop) : Prop := ∀ i revents cleared, l.phase ≠ .serving i revents cleared

private theorem starved_step (ho : Outside l) (hb : Busy l t)
    (hs : loopStep l t = .ok (l', r)) : Outside l' ∧ requestFd r = none ∧ passes r = 0 := by
  rcases loopStep_cases hs with ⟨a, -, harrive, rfl⟩ | ⟨newFd, heap, rfl, hm⟩
  · refine ⟨?_, rfl, rfl⟩
    rw [Outside, (arrive_globals harrive).1]
    exact ho
  · have hpolling : l'.phase = .polling → Outside l' := by
      intro hphase i revents cleared he
      rw [hphase] at he
      cases he
    cases hm with
    | exits phase stdin told =>
      refine ⟨?_, rfl, rfl⟩
      intro i revents cleared he
      cases he
    | accepts phase stdin front free =>
      refine ⟨?_, rfl, rfl⟩
      intro i revents cleared he
      cases he
    | takes phase stdin backlog front handled told => exact ⟨hpolling phase, rfl, rfl⟩
    | begins phase stdin backlog datagrams client ready =>
      rcases hb phase with hbacklog | hdatagrams
      · exact absurd backlog hbacklog
      · exact absurd datagrams hdatagrams
    | admits phase front handled told => exact ⟨hpolling rfl, rfl, rfl⟩
    | serves phase lt flagged entry front handled told => exact absurd phase (ho _ _ _)
    | passes phase lt unflagged => exact absurd phase (ho _ _ _)
    | completes phase ge => exact absurd phase (ho _ _ _)

/-- The bytes of a client that is not served are all still there. -/
theorem unread_step (h : Follows k l s) (hmem : fd ∈ clientFds l.server)
    (hs : loopStep l t = .ok (l', r)) (hr : requestFd r ≠ some fd) :
    fd ∈ clientFds l'.server ∧ (l.sockets fd).unread <+: (l'.sockets fd).unread := by
  constructor
  · exact client_step h hmem hs hr
  · rcases loopStep_cases hs with ⟨a, -, harrive, -⟩ | ⟨newFd, heap, -, hm⟩
    · rcases sockets_arrive harrive fd with hsame | ⟨seg, -, hpush⟩
      · rw [hsame]
      · cases seg with
        | data bs =>
          rw [Socket.push] at hpush
          split_ifs at hpush
          rw [← Option.some.inj hpush]
          exact List.prefix_append _ _
        | fin =>
          rw [Socket.push] at hpush
          split_ifs at hpush
          rw [← Option.some.inj hpush]
    · rw [sockets_of_moves h hm hmem hr]

/-- As long as connections and datagrams keep coming no client is served, and everything the
clients have sent waits. -/
theorem starved_while_busy {turns : List Turn} {reports : List Report}
    (hreach : Reachable loopStep (begin k) l) (hpolling : l.phase = .polling)
    (hbusy : EachStep loopStep Busy l turns) (hr : run loopStep l turns = .ok (l', reports)) :
    (∀ r ∈ reports, requestFd r = none) ∧ (reports.map passes).sum = 0 ∧
      ∀ fd ∈ clientFds l.server,
        fd ∈ clientFds l'.server ∧ (l.sockets fd).unread <+: (l'.sockets fd).unread := by
  obtain ⟨s, h⟩ := exists_follows hreach
  have ho : Outside l := by
    intro i revents cleared he
    rw [hpolling] at he
    cases he
  let Waits (l' : Loop) : Prop := ∀ fd ∈ clientFds l.server,
    fd ∈ clientFds l'.server ∧ (l.sockets fd).unread <+: (l'.sockets fd).unread
  let Ahead (l' : Loop) (turns : List Turn) : Prop :=
    (∃ s, Follows k l' s) ∧ Outside l' ∧ EachStep loopStep Busy l' turns ∧ Waits l'
  have hstep (l₁ : Loop) (t : Turn) (turns : List Turn) (l₂ : Loop) (r : Report)
      (ha : Ahead l₁ (t :: turns)) (hs : loopStep l₁ t = .ok (l₂, r)) :
      Ahead l₂ turns ∧ requestFd r = none ∧ passes r = 0 := by
    obtain ⟨⟨s₁, h₁⟩, ho₁, hbusy, hwaits⟩ := ha
    obtain ⟨ho₂, hrequest, hpasses⟩ := starved_step ho₁ hbusy.1 hs
    refine ⟨⟨exists_follows_step h₁ hs, ho₂, hbusy.2 l₂ r hs, ?_⟩, hrequest, hpasses⟩
    intro fd hfd
    have hother : requestFd r ≠ some fd := by
      rw [hrequest]
      exact Option.some_ne_none fd |>.symm
    obtain ⟨hstill, hfront⟩ := hwaits fd hfd
    obtain ⟨hstill', hfront'⟩ := unread_step h₁ hstill hs hother
    exact ⟨hstill', hfront.trans hfront'⟩
  have hstart : Ahead l turns := ⟨⟨s, h⟩, ho, hbusy, fun fd hfd => ⟨hfd, List.prefix_refl _⟩⟩
  obtain ⟨⟨-, -, -, hwaits⟩, hnone⟩ := outputs_of_ahead hstep hstart hr
  refine ⟨fun r hr => (hnone r hr).1, ?_, hwaits⟩
  apply List.sum_eq_zero_iff_forall_eq_nat.mpr
  intro n hn
  obtain ⟨r, hr, rfl⟩ := List.mem_map.mp hn
  exact (hnone r hr).2

/-- `A` has sent a request; two datagrams are handled instead. -/
theorem starved_while_busy_twice : ∃ l l' reports, Reachable loopStep (begin sampleSockets) l ∧
    (l.sockets 5).unread ≠ [] ∧ run loopStep l [attend, attend] = .ok (l', reports) ∧
      (∀ r ∈ reports, requestFd r = none) ∧ (reports.map passes).sum = 0 ∧
        ∀ fd ∈ clientFds l.server,
          fd ∈ clientFds l'.server ∧ (l.sockets fd).unread <+: (l'.sockets fd).unread := by
  let publication : Turn := .arrival (.datagram ⟨4001, publisherPort_lt, (127, 0, 0, 1)⟩ [])
  have hrun : completesIn loopStep (fun l _ => l.phase = .polling ∧ (l.sockets 5).unread ≠ [] ∧
      EachStep loopStep Busy l [attend, attend] ∧
      completesIn loopStep (fun _ _ => true) l [attend, attend] = true) (begin sampleSockets)
      (comes 5 'A' ++ [sends 5 (letterPacket subscribeAction 'p'), publication, publication]) =
        true := by
    decide +kernel
  obtain ⟨l, before, hr, ht⟩ := exists_run_of_completesIn hrun
  obtain ⟨hpolling, hunread, hbusy, hlater⟩ := of_decide_eq_true ht
  obtain ⟨l', reports, hr', -⟩ := exists_run_of_completesIn hlater
  have hreach : Reachable loopStep (begin sampleSockets) l := ⟨_, before, hr⟩
  exact ⟨l, l', reports, hreach, hunread, hr', starved_while_busy hreach hpolling hbusy hr'⟩

end MessageBroker.LoopProgress
