import Mathlib.Data.Fintype.EquivFin
import MessageBroker.ListFacts
import MessageBroker.LoopProgress

/-!
# The loop works off its input

While nothing arrives, every turn of the server uses up input or brings it nearer to the next
`poll`, so that it settles: it has exited or stopped, it waits in `poll` and nothing is left, or
it waits in `recv` for the rest of one packet.
-/
namespace MessageBroker.LoopSettling
open ListFacts ByteStrings WireFormat ServerStops PollArray ServerHandlers ServerRuns TransitionRuns
open ClientTable DescriptorLifetimes ServicePass ServiceLoop LoopProgress

variable {k : Sockets} {l l' : Loop} {t : Turn} {r : Report} {s : Sys} {fd : ℕ}

def unreadLength (l : Loop) (fd : ℕ) : ℕ := (l.sockets fd).unread.length

/-- The bytes of the connection that is being admitted. -/
def admittingLength (l : Loop) : ℕ :=
  match l.phase with
  | .admitting fd _ => unreadLength l fd
  | _ => 0

/-- What has arrived and was not used: datagrams, connections and bytes. -/
def input (l : Loop) : ℕ :=
  l.datagrams.length + (l.backlog.map (fun q => q.2.unread.length + 1)).sum +
    ((clientFds l.server).map (unreadLength l)).sum + admittingLength l

/-- The turns that use no input and are left in front of one that does. -/
def rank (l : Loop) : ℕ :=
  match l.phase with
  | .exited => 0
  | .serving i _ true => 1 + (backlogMax - i)
  | .polling => backlogMax + 2
  | .admitting _ _ => backlogMax + 2
  | .serving i _ false => backlogMax + 3 + (backlogMax - i)

def work (l : Loop) : ℕ := 3 * backlogMax * input l + rank l

private theorem rank_le (l : Loop) : rank l ≤ 2 * backlogMax + 3 := by
  rw [rank]
  split <;> simp only [backlogMax] <;> omega

/-- A turn that uses input is paid by it, whatever it does to the rank. -/
theorem work_lt_of_input (h : input l' < input l) : work l' < work l := by
  have hrank := rank_le l'
  simp only [work, backlogMax] at *
  omega

private theorem work_lt_of_rank (h : input l' ≤ input l) (hrank : rank l' < rank l) :
    work l' < work l := by
  simp only [work, backlogMax] at *
  omega

private theorem length_rest_lt {p : Packet} {rest : Bytes}
    (front : frontPacket (l.sockets fd).unread = some (p, rest)) :
    rest.length < unreadLength l fd := by
  have hpos := p.length_bytes_pos
  rw [unreadLength, eq_of_frontPacket front, List.length_append]
  omega

private theorem notMem_of_free (h : Follows k l s) (free : fd ∉ l.opened) :
    fd ∉ clientFds l.server := by
  rw [h.server, h.inv.clientFds_eq]
  intro hmem
  obtain ⟨c, hc, rfl⟩ := List.mem_map.mp hmem
  exact free (h.opened ▸ h.inv.liveOpened c hc)

/-- The new descriptor is that of no client. -/
theorem sum_update_of_free (h : Follows k l s) (free : fd ∉ l.opened) (socket : Socket) :
    (clientFds l.server).map (fun n => (Function.update l.sockets fd socket n).unread.length) =
      (clientFds l.server).map (unreadLength l) := by
  apply List.map_congr_left
  intro n hn
  have hne : n ≠ fd := fun he => notMem_of_free h free (he ▸ hn)
  rw [Function.update_of_ne hne, unreadLength]

private theorem input_accepts (h : Follows k l s) {peer : SockAddrIn} {socket : Socket}
    {backlog : List (SockAddrIn × Socket)} (phase : l.phase = .polling)
    (front : l.backlog = (peer, socket) :: backlog) (free : fd ∉ l.opened) :
    input { l with
      phase := .admitting fd peer
      backlog := backlog
      sockets := Function.update l.sockets fd socket } < input l := by
  have hsum := sum_update_of_free h free socket
  have hnew : (Function.update l.sockets fd socket fd).unread.length = socket.unread.length := by
    rw [Function.update_self]
  simp only [input, admittingLength, phase, front, List.map_cons, List.sum_cons]
  change _ + ((clientFds l.server).map
    (fun n => (Function.update l.sockets fd socket n).unread.length)).sum +
      (Function.update l.sockets fd socket fd).unread.length < _
  rw [hsum, hnew]
  omega

private theorem input_admits (h : Follows k l s) {peer : SockAddrIn} {p : Packet} {rest : Bytes}
    {server : Server} {opened : List ℕ} (phase : l.phase = .admitting fd peer)
    (front : frontPacket (l.sockets fd).unread = some (p, rest))
    (hfds : clientFds server = clientFds l.server ∨
      clientFds server = clientFds l.server ++ [fd]) :
    input { l with
      phase := .polling
      server := server
      opened := opened
      sockets := l.leave fd rest } < input l := by
  have free := h.phase
  rw [PhaseInvariant, phase] at free
  have hsum := sum_update_of_free h free ⟨rest, (l.sockets fd).ended⟩
  have hrest := length_rest_lt front
  have hnew : (l.leave fd rest fd).unread.length = rest.length := by
    rw [Loop.leave, Function.update_self]
  simp only [input, admittingLength, phase]
  change _ + ((clientFds server).map (fun n => (l.leave fd rest n).unread.length)).sum + 0 < _
  rcases hfds with hfds | hfds
  · rw [hfds, Loop.leave, hsum]
    omega
  · rw [hfds, List.map_append, List.sum_append, List.map_singleton, List.sum_singleton, hnew,
      Loop.leave, hsum]
    omega

private theorem input_serves (h : Follows k l s) {i : ℕ} {revents revents' : List ℕ}
    {cleared : Bool} {p : Packet} {rest : Bytes} {server : Server} {opened : List ℕ}
    (phase : l.phase = .serving i revents cleared) (lt : i < l.server.svFds.count)
    (entry : (l.server.svFds.entries.getD i default).fd = fd)
    (front : frontPacket (l.sockets fd).unread = some (p, rest))
    (hfds : clientFds server = if p.action = shutdownClose then
      (clientFds l.server).filter (· ≠ fd) else clientFds l.server) :
    input { l with
      phase := .serving (i + 1) revents' false
      server := server
      opened := opened
      sockets := l.leave fd rest } < input l := by
  obtain ⟨before, behind, hbefore, -⟩ := h.split phase lt entry
  have hnodup := h.nodup
  rw [hbefore] at hnodup
  have hlt : (l.leave fd rest fd).unread.length < unreadLength l fd := by
    rw [Loop.leave, Function.update_self]
    exact length_rest_lt front
  have hother : ∀ n ≠ fd, (l.leave fd rest n).unread.length = unreadLength l n := by
    intro n hn
    rw [Loop.leave, Function.update_of_ne hn, unreadLength]
  obtain ⟨hkept, hremoved⟩ :=
    sum_map_lt (unreadLength l) (fun n => (l.leave fd rest n).unread.length) hnodup hlt hother
  simp only [input, admittingLength, phase]
  change _ + ((clientFds server).map (fun n => (l.leave fd rest n).unread.length)).sum + 0 < _
  rw [hfds, hbefore, RemovalLoop.filter_ne_append hnodup]
  split_ifs
  · omega
  · omega

/-- Without arrivals every turn of the server leaves less work. -/
theorem work_lt (h : Follows k l s) {newFd : ℕ} {heap : Memory}
    (hs : l.turn newFd heap = .ok (l', r)) : work l' < work l := by
  have hfds := clientFds_loopStep (t := .server newFd heap) h hs
  have hcount : l.server.svFds.count ≤ backlogMax := by
    rw [h.server]
    exact h.inv.table.room
  cases moves_of_turn hs with
  | exits phase stdin told =>
    apply work_lt_of_rank
    · simp only [input, admittingLength, phase]
      exact Nat.le_refl _
    · simp only [rank, phase, backlogMax]
      omega
  | accepts phase stdin front free =>
    exact work_lt_of_input (input_accepts h phase front free)
  | takes phase stdin backlog front handled told =>
    apply work_lt_of_input
    have hsame : clientFds _ = clientFds l.server := hfds
    simp only [input, admittingLength, phase, front, List.length_cons, hsame]
    change _ + _ + ((clientFds l.server).map (unreadLength l)).sum + 0 < _
    omega
  | begins phase stdin backlog datagrams client ready =>
    apply work_lt_of_rank
    · simp only [input, admittingLength, phase]
      exact Nat.le_refl _
    · simp only [rank, phase, backlogMax]
      omega
  | @admits new peer p rest server retId effects opened phase front handled told =>
    apply work_lt_of_input (input_admits h phase front ?_)
    simp only [Report.event, Option.elim, track] at hfds
    split_ifs at hfds
    · exact .inr hfds
    · exact .inl hfds
  | serves phase lt flagged entry front handled told =>
    exact work_lt_of_input (input_serves h phase lt entry front hfds)
  | @passes i revents cleared phase lt unflagged =>
    apply work_lt_of_rank
    · simp only [input, admittingLength, phase]
      exact Nat.le_refl _
    · cases cleared <;> simp only [rank, phase, backlogMax] at * <;> omega
  | @completes i revents cleared phase ge =>
    apply work_lt_of_rank
    · simp only [input, admittingLength, phase]
      exact Nat.le_refl _
    · obtain ⟨-, -, hcoming⟩ := h.serving phase
      cases cleared with
      | true =>
        obtain ⟨j, hij, hj, -⟩ := hcoming rfl
        rw [h.server] at ge
        omega
      | false =>
        simp only [rank, phase, backlogMax]
        omega

/-- The same for the step of the loop. -/
theorem work_lt_step (l : Loop) (t : Turn) (l' : Loop) (r : Report) (h : ∃ s, Follows k l s)
    (hserver : ∃ fd heap, t = .server fd heap) (hs : loopStep l t = .ok (l', r)) :
    (∃ s, Follows k l' s) ∧ work l' < work l := by
  obtain ⟨s, h⟩ := h
  obtain ⟨fd, heap, rfl⟩ := hserver
  exact ⟨exists_follows_step h hs, work_lt h hs⟩

/-- The server takes no turn before something arrives, or at all. -/
inductive Settled (l : Loop) : Prop
  | finished (phase : l.phase = .exited)
  | idle (phase : l.phase = .polling) (stdin : l.stdin = false) (backlog : l.backlog = [])
      (datagrams : l.datagrams = [])
      (clients : ∀ fd ∈ clientFds l.server,
        (l.sockets fd).unread = [] ∧ (l.sockets fd).ended = false)
  | unfinished {fd : ℕ} (waits : receiving l = some fd)
      (packet : frontPacket (l.sockets fd).unread = none)
      (short : (l.sockets fd).unread.length ≤ maxLen)
  | stopped (stops : ∀ fd heap, ∃ why, l.turn fd heap = .error (.stopped why))

private theorem readable_eq_false {socket : Socket} (h : Loop.readable socket ≠ true) :
    socket.unread = [] ∧ socket.ended = false := by
  rw [ne_eq, Bool.not_eq_true, Loop.readable, Bool.or_eq_false_iff, Bool.not_eq_false',
    List.isEmpty_iff] at h
  exact h

/-- `poll` waits. -/
theorem idle_of_poll (h : l.poll.all (· = 0) = true) : l.stdin = false ∧ l.backlog = [] ∧
    l.datagrams = [] ∧ ∀ fd ∈ clientFds l.server, Loop.readable (l.sockets fd) ≠ true := by
  have hzero {ready : Bool} (hmem : Loop.flag ready ∈ l.poll) : ready ≠ true := by
    rintro rfl
    exact absurd (of_decide_eq_true (List.all_eq_true.mp h _ hmem)) (by decide)
  have hstdin : l.stdin ≠ true := hzero List.mem_cons_self
  have hbacklog : (!l.backlog.isEmpty) ≠ true := hzero (.tail _ List.mem_cons_self)
  have hdatagrams : (!l.datagrams.isEmpty) ≠ true := hzero (.tail _ (.tail _ List.mem_cons_self))
  simp only [ne_eq, Bool.not_eq_true, Bool.not_eq_false', List.isEmpty_iff] at *
  refine ⟨hstdin, hbacklog, hdatagrams, ?_⟩
  intro fd hfd
  exact hzero (List.mem_append_right _ (List.mem_map.mpr ⟨fd, hfd, rfl⟩))

/-- Behind the call of a handler only the handler, or a `send`, can end the turn. -/
theorem stopped_or_ok {α β : Type} {x : Except Stop α} {opened : α → Except Stop (List ℕ)}
    {f : α → List ℕ → β} {result : Except Block β}
    (h : result = (x.mapError Block.stopped >>= fun a =>
      (opened a).mapError Block.stopped >>= fun o => .ok (f a o))) :
    (∃ why, result = .error (.stopped why)) ∨ ∃ b, result = .ok b := by
  subst h
  cases x with
  | error why => exact .inl ⟨why, rfl⟩
  | ok a =>
    cases ho : opened a with
    | error why => exact .inl ⟨why, by simp [Except.mapError, ho]⟩
    | ok o => exact .inr ⟨f a o, by simp [Except.mapError, ho]⟩

private theorem perform_shutdownServer (h : Follows k l s) :
    ∃ opened, perform l.opened l.server.shutdownServer.2 = .ok opened := by
  have hopen : clientFds s.server ⊆ s.opened := by
    intro fd hfd
    rw [h.inv.clientFds_eq] at hfd
    obtain ⟨c, hc, rfl⟩ := List.mem_map.mp hfd
    exact h.inv.liveOpened c hc
  rw [h.server, h.opened, shutdownServer_effects h.inv,
    perform_farewells (h.inv.clientFds_eq ▸ h.inv.liveFds) hopen]
  exact ⟨_, rfl⟩

private theorem poll_of_idle (stdin : l.stdin = false) (backlog : l.backlog = [])
    (datagrams : l.datagrams = [])
    (clients : ∀ fd ∈ clientFds l.server, (l.sockets fd).unread = [] ∧ (l.sockets fd).ended = false) :
    l.poll.all (· = 0) = true := by
  rw [Loop.poll, stdin, backlog, datagrams, List.all_append, Bool.and_eq_true]
  refine ⟨by decide, ?_⟩
  rw [List.all_eq_true]
  intro flag hflag
  obtain ⟨fd, hfd, rfl⟩ := List.mem_map.mp hflag
  obtain ⟨hunread, hended⟩ := clients fd hfd
  rw [Loop.readable, hunread, hended]
  rfl

/-- The front of the stream decides whether a handler is called. -/
theorem receive_cases (l : Loop) (fd : ℕ) :
    (∃ p rest, frontPacket (l.sockets fd).unread = some (p, rest) ∧ l.receive fd = .ok (p, rest)) ∨
    (frontPacket (l.sockets fd).unread = none ∧ (l.sockets fd).unread.length ≤ maxLen ∧
      l.receive fd = .error (.receiving fd)) ∨
    l.receive fd = .error (.stopped .outsideBuff) := by
  rw [Loop.receive]
  cases frontPacket (l.sockets fd).unread with
  | some front => exact .inl ⟨front.1, front.2, rfl, rfl⟩
  | none =>
    by_cases hlen : (l.sockets fd).unread.length ≤ maxLen
    · exact .inr (.inl ⟨rfl, hlen, if_pos hlen⟩)
    · exact .inr (.inr (if_neg hlen))

/-- A loop that takes no turn has settled. -/
theorem settled_of_stuck (h : Follows k l s)
    (hstuck : ∀ fd heap, ∃ why, l.turn fd heap = .error why) : Settled l := by
  have hno {fd : ℕ} {heap : Memory} {q : Loop × Report} (hok : l.turn fd heap = .ok q) : False := by
    obtain ⟨why, hwhy⟩ := hstuck fd heap
    rw [hok] at hwhy
    cases hwhy
  cases hphase : l.phase with
  | exited => exact .finished hphase
  | polling =>
    have hturn (fd : ℕ) (heap : Memory) : l.turn fd heap =
        if l.poll.all (· = 0) then .error .waiting else l.answer l.poll fd heap := by
      simp only [Loop.turn, hphase]
    by_cases hidle : l.poll.all (· = 0) = true
    · obtain ⟨hstdin, hbacklog, hdatagrams, hclients⟩ := idle_of_poll hidle
      exact .idle hphase hstdin hbacklog hdatagrams
        (fun fd hfd => readable_eq_false (hclients fd hfd))
    · simp only [if_neg hidle] at hturn
      have hhead : l.poll.getD 0 0 = Loop.flag l.stdin := rfl
      have hlistener : l.poll.getD 1 0 = Loop.flag !l.backlog.isEmpty := rfl
      have hudp : l.poll.getD 2 0 = Loop.flag !l.datagrams.isEmpty := rfl
      simp only [Loop.answer, hhead, hlistener, hudp, flag_and_pollin] at hturn
      cases hstdin : l.stdin with
      | true =>
        obtain ⟨opened, htold⟩ := perform_shutdownServer h
        simp only [hstdin, if_true, Loop.shutDown, htold, Except.mapError, ok_bind] at hturn
        exact (hno (hturn 0 fun _ => 0)).elim
      | false =>
        cases hbacklog : l.backlog with
        | cons q backlog =>
          obtain ⟨peer, socket⟩ := q
          obtain ⟨fd, hfree⟩ := Infinite.exists_notMem_finset l.opened.toFinset
          rw [List.mem_toFinset] at hfree
          have hok := hturn fd (fun _ => 0)
          simp only [hstdin, hbacklog, Loop.accept, if_neg hfree] at hok
          exact (hno hok).elim
        | nil =>
          cases hdatagrams : l.datagrams with
          | cons q datagrams =>
            obtain ⟨src, data⟩ := q
            refine .stopped ?_
            intro fd heap
            have hresult := hturn fd heap
            simp only [hstdin, hbacklog, hdatagrams, Loop.takeDatagram] at hresult
            rcases stopped_or_ok hresult with hstops | ⟨q, hok⟩
            · exact hstops
            · exact (hno hok).elim
          | nil =>
            have hok := hturn 0 (fun _ => 0)
            simp only [hstdin, hbacklog, hdatagrams, Bool.false_eq_true, if_false,
              List.isEmpty_nil, Bool.not_true] at hok
            split_ifs at hok
            · exact (hno hok).elim
            · exact (hno hok).elim
  | admitting newFd peer =>
    have hturn (fd : ℕ) (heap : Memory) : l.turn fd heap = l.receiveConnect newFd peer := by
      simp only [Loop.turn, hphase]
    have hwaits : receiving l = some newFd := by simp only [receiving, hphase]
    rcases receive_cases l newFd with ⟨p, rest, -, hreceive⟩ | ⟨hnone, hshort, -⟩ | hreceive
    · refine .stopped ?_
      intro fd heap
      have hresult := hturn fd heap
      simp only [Loop.receiveConnect, hreceive, ok_bind] at hresult
      rcases stopped_or_ok hresult with hstops | ⟨q, hok⟩
      · exact hstops
      · exact (hno hok).elim
    · exact .unfinished hwaits hnone hshort
    · refine .stopped ?_
      intro fd heap
      refine ⟨.outsideBuff, (hturn fd heap).trans ?_⟩
      simp only [Loop.receiveConnect, hreceive, error_bind]
  | serving i revents cleared =>
    have hturn (fd : ℕ) (heap : Memory) : l.turn fd heap = l.visit i revents cleared := by
      simp only [Loop.turn, hphase]
    by_cases hlt : i < l.server.svFds.count
    · by_cases hflag : revents.getD i 0 &&& pollin ≠ 0
      · have hwaits : receiving l = some (l.server.svFds.entries.getD i default).fd := by
          simp only [receiving, hphase]
          exact if_pos ⟨hlt, hflag⟩
        simp only [Loop.visit, if_pos hlt, if_pos hflag] at hturn
        rcases receive_cases l (l.server.svFds.entries.getD i default).fd with
          ⟨p, rest, -, hreceive⟩ | ⟨hnone, hshort, -⟩ | hreceive
        · refine .stopped ?_
          intro fd heap
          have hresult := hturn fd heap
          simp only [hreceive, ok_bind] at hresult
          rcases stopped_or_ok hresult with hstops | ⟨q, hok⟩
          · exact hstops
          · exact (hno hok).elim
        · exact .unfinished hwaits hnone hshort
        · refine .stopped ?_
          intro fd heap
          refine ⟨.outsideBuff, (hturn fd heap).trans ?_⟩
          simp only [hreceive, error_bind]
      · have hok := hturn 0 (fun _ => 0)
        simp only [Loop.visit, if_pos hlt, if_neg hflag] at hok
        exact (hno hok).elim
    · have hok := hturn 0 (fun _ => 0)
      simp only [Loop.visit, if_neg hlt] at hok
      exact (hno hok).elim

/-- The server takes no turn exactly if the loop has settled. -/
theorem stuck_iff_settled (h : Follows k l s) :
    (∀ fd heap, ∃ why, l.turn fd heap = .error why) ↔ Settled l := by
  refine ⟨settled_of_stuck h, ?_⟩
  intro hsettled fd heap
  cases hsettled with
  | finished phase => exact ⟨.finished, by simp only [Loop.turn, phase]⟩
  | idle phase stdin backlog datagrams clients =>
    refine ⟨.waiting, ?_⟩
    simp only [Loop.turn, phase]
    exact if_pos (poll_of_idle stdin backlog datagrams clients)
  | unfinished waits packet short => exact turn_of_receiving waits packet fd heap
  | stopped stops =>
    obtain ⟨why, hwhy⟩ := stops fd heap
    exact ⟨_, hwhy⟩

/-- From every reachable state the server settles, and on every way there it takes no more turns
than the work that has arrived allows. -/
theorem settles (hreach : Reachable loopStep (begin k) l) :
    (∀ turns reports l', (∀ t ∈ turns, ∃ fd heap, t = .server fd heap) →
      run loopStep l turns = .ok (l', reports) → turns.length ≤ work l) ∧
    ∃ turns reports l', (∀ t ∈ turns, ∃ fd heap, t = .server fd heap) ∧
      run loopStep l turns = .ok (l', reports) ∧ Settled l' := by
  have h := exists_follows hreach
  constructor
  · intro turns reports l' hserver hr
    have hown := (eachStep_const hr).mpr hserver
    exact Nat.le_of_add_right_le (length_le_of_decreasing work_lt_step h hown hr)
  · obtain ⟨turns, reports, l', hown, hr, ⟨s', h'⟩, hend⟩ := exists_run_to_end work_lt_step h
    refine ⟨turns, reports, l', (eachStep_const hr).mp hown, hr, settled_of_stuck h' ?_⟩
    exact fun fd heap => hend _ ⟨fd, heap, rfl⟩

/-- Three clients have sent requests. -/
theorem settles_crowded : ∃ l, Reachable loopStep (begin sampleSockets) l ∧ work l = 3714 ∧
    ∃ turns reports l', (∀ t ∈ turns, ∃ fd heap, t = .server fd heap) ∧
      run loopStep l turns = .ok (l', reports) ∧ Settled l' := by
  have hrun : completesIn loopStep (fun l _ => work l = 3714) (begin sampleSockets) crowded =
      true := by decide +kernel
  obtain ⟨l, before, hr, ht⟩ := exists_run_of_completesIn hrun
  have hreach : Reachable loopStep (begin sampleSockets) l := ⟨_, before, hr⟩
  exact ⟨l, hreach, of_decide_eq_true ht, (settles hreach).2⟩

end MessageBroker.LoopSettling
