import MessageBroker.DescriptorLifetimes
import MessageBroker.ServicePass

/-!
# The loop of the server

`start_server` with `poll` and the two places where `recv` can block. Beside the globals stand
what the kernel holds for the server: connections that are not accepted yet, datagrams, and the
bytes of each connection. They arrive at any time, and the server takes one turn after the other.
-/
namespace MessageBroker.ServiceLoop
open ByteStrings WireFormat ServerStops PollArray SubscriberRecords ServerHandlers HandlerOutcomes
open ServerRuns TransitionRuns ClientTable DescriptorLifetimes ServicePass

/-- Between `accept` and the CONNECT the server is `admitting`. It is `serving` at index `i` of the
loop over the clients with the flags of the last `poll`; `cleared` says that `buff` still is. -/
inductive Phase
  | polling
  | admitting (fd : ℕ) (peer : SockAddrIn)
  | serving (i : ℕ) (revents : List ℕ) (cleared : Bool)
  | exited
  deriving DecidableEq

/-- The bytes of a connection that were not received yet, and whether its peer has closed. -/
structure Socket where
  unread : Bytes
  ended : Bool

inductive Segment
  | data (bs : Bytes)
  | fin

/-- Nothing arrives behind the end. -/
def Socket.push (socket : Socket) : Segment → Option Socket
  | .data bs => if socket.ended then none else some { socket with unread := socket.unread ++ bs }
  | .fin => if socket.ended then none else some { socket with ended := true }

structure Loop where
  phase : Phase
  server : Server
  opened : List ℕ
  stdin : Bool
  backlog : List (SockAddrIn × Socket)
  datagrams : List (SockAddrIn × Bytes)
  sockets : ℕ → Socket

/-- A connection before and after `accept`. -/
inductive Place
  | waiting (j : ℕ)
  | accepted (fd : ℕ)

inductive Arrival
  | typed
  | connects (peer : SockAddrIn)
  | datagram (src : SockAddrIn) (data : Bytes)
  | segment (place : Place) (seg : Segment)

/-- The server's turns come with the answer of `accept` and the old contents of a block from
`malloc`. -/
inductive Turn
  | arrival (a : Arrival)
  | server (fd : ℕ) (heap : Memory)

inductive Report
  | quiet
  | passBegins
  | handled (e : Event) (effects : List Effect)
  | exits (effects : List Effect)

/-- Why the server takes no turn: it waits in `poll`, or in `recv` on a descriptor. -/
inductive Block
  | impossible
  | waiting
  | receiving (fd : ℕ)
  | finished
  | stopped (why : Stop)
  deriving DecidableEq

def Report.event : Report → Option (Event × List Effect)
  | .handled e effects => some (e, effects)
  | _ => none

namespace Loop

/-- The server has the descriptor. -/
def Has (l : Loop) (fd : ℕ) : Prop := fd ∈ l.opened ∨ ∃ peer, l.phase = .admitting fd peer

instance (l : Loop) (fd : ℕ) : Decidable (l.Has fd) :=
  match hp : l.phase with
  | .admitting fd' peer => decidable_of_iff (fd ∈ l.opened ∨ fd' = fd) (by simp [Has, hp])
  | .polling => decidable_of_iff (fd ∈ l.opened) (by simp [Has, hp])
  | .serving _ _ _ => decidable_of_iff (fd ∈ l.opened) (by simp [Has, hp])
  | .exited => decidable_of_iff (fd ∈ l.opened) (by simp [Has, hp])

def arrive (l : Loop) : Arrival → Option Loop
  | .typed => some { l with stdin := true }
  | .connects peer => some { l with backlog := l.backlog ++ [(peer, ⟨[], false⟩)] }
  | .datagram src data => some { l with datagrams := l.datagrams ++ [(src, data)] }
  | .segment (.waiting j) seg => do
    let (peer, socket) ← l.backlog[j]?
    let socket ← socket.push seg
    some { l with backlog := l.backlog.set j (peer, socket) }
  | .segment (.accepted fd) seg =>
    if l.Has fd then do
      let socket ← (l.sockets fd).push seg
      some { l with sockets := Function.update l.sockets fd socket }
    else none

def flag (ready : Bool) : ℕ := if ready then pollin else 0

/-- At the end of a stream `recv` returns as well. -/
def readable (socket : Socket) : Bool := !socket.unread.isEmpty || socket.ended

/-- The flags `poll` writes into `sv_fds`. -/
def poll (l : Loop) : List ℕ :=
  [flag l.stdin, flag !l.backlog.isEmpty, flag !l.datagrams.isEmpty] ++
    (clientFds l.server).map (fun fd => flag (readable (l.sockets fd)))

/-- `recv_tcp_packet`. At the end of a stream `recv` returns `0` again and again, and what is read
of an unfinished packet goes to the buffer. -/
def receive (l : Loop) (fd : ℕ) : Except Block (Packet × Bytes) :=
  match frontPacket (l.sockets fd).unread with
  | some front => .ok front
  | none =>
    if (l.sockets fd).unread.length ≤ maxLen then .error (.receiving fd)
    else .error (.stopped .outsideBuff)

/-- The bytes behind a packet stay in the kernel. -/
def leave (l : Loop) (fd : ℕ) (rest : Bytes) : ℕ → Socket :=
  Function.update l.sockets fd ⟨rest, (l.sockets fd).ended⟩

def shutDown (l : Loop) : Except Block (Loop × Report) := do
  let effects := l.server.shutdownServer.2
  let _ ← (perform l.opened effects).mapError Block.stopped
  .ok ({ l with phase := .exited }, .exits effects)

def accept (l : Loop) (newTcpConFd : ℕ) : Except Block (Loop × Report) :=
  match l.backlog with
  | [] => .error .impossible
  | (peer, socket) :: backlog =>
    if newTcpConFd ∈ l.opened then .error .impossible
    else .ok ({ l with
      phase := .admitting newTcpConFd peer
      backlog := backlog
      sockets := Function.update l.sockets newTcpConFd socket }, .quiet)

/-- What follows `accept`. -/
def receiveConnect (l : Loop) (fd : ℕ) (peer : SockAddrIn) : Except Block (Loop × Report) := do
  let (p, rest) ← l.receive fd
  let (server, _, effects) ← (l.server.acceptBranch fd peer p).mapError Block.stopped
  let opened ← (perform (fd :: l.opened) effects).mapError Block.stopped
  .ok ({ l with phase := .polling, server := server, opened := opened, sockets := l.leave fd rest },
    .handled (.connect fd peer p) effects)

def takeDatagram (l : Loop) (heap : Memory) : Except Block (Loop × Report) :=
  match l.datagrams with
  | [] => .error .impossible
  | (src, data) :: datagrams => do
    let (server, effects) ← (l.server.udpBranch src data heap).mapError Block.stopped
    let opened ← (perform l.opened effects).mapError Block.stopped
    .ok ({ l with server := server, opened := opened, datagrams := datagrams },
      .handled (.datagram src data heap) effects)

/-- The branches of the loop in their order. -/
def answer (l : Loop) (revents : List ℕ) (fd : ℕ) (heap : Memory) : Except Block (Loop × Report) :=
  if revents.getD 0 0 &&& pollin ≠ 0 then l.shutDown
  else if revents.getD 1 0 &&& pollin ≠ 0 then l.accept fd
  else if revents.getD 2 0 &&& pollin ≠ 0 then l.takeDatagram heap
  else if 3 < l.server.svFds.count then .ok ({ l with phase := .serving 3 revents true }, .passBegins)
  else .ok (l, .quiet)

/-- One turn of the loop over the clients. A handler that removes the entry moves the flags. -/
def visit (l : Loop) (i : ℕ) (revents : List ℕ) (cleared : Bool) : Except Block (Loop × Report) :=
  if i < l.server.svFds.count then
    if revents.getD i 0 &&& pollin ≠ 0 then do
      let fd := (l.server.svFds.entries.getD i default).fd
      let (p, rest) ← l.receive fd
      let before := if cleared then l.server.clearBuffer else l.server
      let (server, effects) ← (before.parseTcpClientMessage fd p).mapError Block.stopped
      let opened ← (perform l.opened effects).mapError Block.stopped
      let revents := Pass.moveRevents ⟨l.server, revents, fun _ => [], [], []⟩ fd p
      .ok ({ l with
        phase := .serving (i + 1) revents false
        server := server
        opened := opened
        sockets := l.leave fd rest }, .handled (.packet cleared fd p) effects)
    else .ok ({ l with phase := .serving (i + 1) revents cleared }, .quiet)
  else .ok ({ l with phase := .polling }, .quiet)

def turn (l : Loop) (fd : ℕ) (heap : Memory) : Except Block (Loop × Report) :=
  match l.phase with
  | .polling => if l.poll.all (· = 0) then .error .waiting else l.answer l.poll fd heap
  | .admitting newTcpConFd peer => l.receiveConnect newTcpConFd peer
  | .serving i revents cleared => l.visit i revents cleared
  | .exited => .error .finished

end Loop

def loopStep : Transition Loop Turn Report Block
  | l, .arrival a =>
    match l.arrive a with
    | some l => .ok (l, .quiet)
    | none => .error .impossible
  | l, .server fd heap => l.turn fd heap

/-- The server as `main` leaves it in front of the loop. -/
def begin (k : Sockets) : Loop :=
  ⟨.polling, (start k).server, (start k).opened, false, [], [], fun _ => ⟨[], false⟩⟩

variable {k : Sockets} {l l' : Loop} {r : Report} {s : Sys}

/-- The turns that the server completes, with all that was tested for them. -/
inductive Moves (l : Loop) (heap : Memory) : Loop → Report → Prop
  | exits {opened : List ℕ} (phase : l.phase = .polling) (stdin : l.stdin = true)
      (told : perform l.opened l.server.shutdownServer.2 = .ok opened) :
      Moves l heap { l with phase := .exited } (.exits l.server.shutdownServer.2)
  | accepts {fd : ℕ} {peer : SockAddrIn} {socket : Socket} {backlog : List (SockAddrIn × Socket)}
      (phase : l.phase = .polling) (stdin : l.stdin = false)
      (front : l.backlog = (peer, socket) :: backlog) (free : fd ∉ l.opened) :
      Moves l heap { l with
        phase := .admitting fd peer
        backlog := backlog
        sockets := Function.update l.sockets fd socket } .quiet
  | takes {src : SockAddrIn} {data : Bytes} {datagrams : List (SockAddrIn × Bytes)}
      {server : Server} {effects : List Effect} {opened : List ℕ}
      (phase : l.phase = .polling) (stdin : l.stdin = false) (backlog : l.backlog = [])
      (front : l.datagrams = (src, data) :: datagrams)
      (handled : l.server.udpBranch src data heap = .ok (server, effects))
      (told : perform l.opened effects = .ok opened) :
      Moves l heap { l with server := server, opened := opened, datagrams := datagrams }
        (.handled (.datagram src data heap) effects)
  | begins {fd : ℕ} (phase : l.phase = .polling) (stdin : l.stdin = false)
      (backlog : l.backlog = []) (datagrams : l.datagrams = []) (client : fd ∈ clientFds l.server)
      (ready : Loop.readable (l.sockets fd) = true) :
      Moves l heap { l with phase := .serving 3 l.poll true } .passBegins
  | admits {fd : ℕ} {peer : SockAddrIn} {p : Packet} {rest : Bytes} {server : Server}
      {retId : Option Bytes} {effects : List Effect} {opened : List ℕ}
      (phase : l.phase = .admitting fd peer)
      (front : frontPacket (l.sockets fd).unread = some (p, rest))
      (handled : l.server.acceptBranch fd peer p = .ok (server, retId, effects))
      (told : perform (fd :: l.opened) effects = .ok opened) :
      Moves l heap { l with
        phase := .polling
        server := server
        opened := opened
        sockets := l.leave fd rest } (.handled (.connect fd peer p) effects)
  | serves {i fd : ℕ} {revents : List ℕ} {cleared : Bool} {p : Packet} {rest : Bytes}
      {server : Server} {effects : List Effect} {opened : List ℕ}
      (phase : l.phase = .serving i revents cleared) (lt : i < l.server.svFds.count)
      (flagged : revents.getD i 0 &&& pollin ≠ 0)
      (entry : (l.server.svFds.entries.getD i default).fd = fd)
      (front : frontPacket (l.sockets fd).unread = some (p, rest))
      (handled : (if cleared then l.server.clearBuffer else l.server).parseTcpClientMessage fd p =
        .ok (server, effects)) (told : perform l.opened effects = .ok opened) :
      Moves l heap { l with
        phase := .serving (i + 1)
          (Pass.moveRevents ⟨l.server, revents, fun _ => [], [], []⟩ fd p) false
        server := server
        opened := opened
        sockets := l.leave fd rest } (.handled (.packet cleared fd p) effects)
  | passes {i : ℕ} {revents : List ℕ} {cleared : Bool}
      (phase : l.phase = .serving i revents cleared) (lt : i < l.server.svFds.count)
      (unflagged : revents.getD i 0 &&& pollin = 0) :
      Moves l heap { l with phase := .serving (i + 1) revents cleared } .quiet
  | completes {i : ℕ} {revents : List ℕ} {cleared : Bool}
      (phase : l.phase = .serving i revents cleared) (ge : l.server.svFds.count ≤ i) :
      Moves l heap { l with phase := .polling } .quiet

theorem flag_and_pollin (ready : Bool) : Loop.flag ready &&& pollin ≠ 0 ↔ ready = true := by
  cases ready <;> decide

private theorem receive_eq_ok {fd : ℕ} {front : Packet × Bytes} :
    l.receive fd = .ok front ↔ frontPacket (l.sockets fd).unread = some front := by
  rw [Loop.receive]
  cases frontPacket (l.sockets fd).unread with
  | none => split_ifs <;> simp
  | some _ => simp

theorem clientFds_length (sv : Server) : (clientFds sv).length = sv.svFds.count - 3 := by
  rw [clientFds, List.length_map, List.length_drop, SvFds.count]

/-- If `poll` returns, the first flag that is set decides. -/
theorem exists_ready (h : l.poll.all (· = 0) = false) (stdin : l.stdin = false)
    (backlog : l.backlog = []) (datagrams : l.datagrams = []) :
    ∃ fd ∈ clientFds l.server, Loop.readable (l.sockets fd) = true := by
  by_contra hno
  push Not at hno
  have hall : l.poll.all (· = 0) = true := by
    simp only [Loop.poll, stdin, backlog, datagrams, List.isEmpty_nil, Bool.not_true,
      List.all_append, List.all_map, List.all_eq_true, Bool.and_eq_true]
    refine ⟨by decide, ?_⟩
    intro fd hfd
    simp [Loop.flag, hno fd hfd]
  rw [hall] at h
  cases h

theorem moves_of_turn {fd : ℕ} {heap : Memory} (h : l.turn fd heap = .ok (l', r)) :
    Moves l heap l' r := by
  rw [Loop.turn] at h
  split at h
  · rename_i hphase
    split_ifs at h with hidle
    have hhead : l.poll.getD 0 0 = Loop.flag l.stdin := rfl
    have hlistener : l.poll.getD 1 0 = Loop.flag !l.backlog.isEmpty := rfl
    have hudp : l.poll.getD 2 0 = Loop.flag !l.datagrams.isEmpty := rfl
    rw [Loop.answer, hhead, hlistener, hudp] at h
    simp only [flag_and_pollin] at h
    split_ifs at h with hstdin hbacklog hdatagrams hclients
    · obtain ⟨opened, htold, he⟩ := bind_eq_ok.mp h
      cases he
      exact .exits hphase hstdin (mapError_eq_ok.mp htold)
    · rw [Bool.not_eq_true] at hstdin
      rw [Loop.accept] at h
      split at h
      · cases h
      · rename_i peer socket backlog hfront
        split_ifs at h with hfree
        cases h
        exact .accepts hphase hstdin hfront hfree
    · rw [Bool.not_eq_true] at hstdin
      rw [Bool.not_eq_true, Bool.not_eq_false', List.isEmpty_iff] at hbacklog
      rw [Loop.takeDatagram] at h
      split at h
      · cases h
      · rename_i src data datagrams hfront
        obtain ⟨⟨server, effects⟩, hhandled, h⟩ := bind_eq_ok.mp h
        obtain ⟨opened, htold, he⟩ := bind_eq_ok.mp h
        cases he
        exact .takes hphase hstdin hbacklog hfront (mapError_eq_ok.mp hhandled)
          (mapError_eq_ok.mp htold)
    all_goals
      rw [Bool.not_eq_true] at hstdin
      rw [Bool.not_eq_true, Bool.not_eq_false', List.isEmpty_iff] at hbacklog hdatagrams
      obtain ⟨client, hclient, hready⟩ :=
        exists_ready (Bool.not_eq_true _ ▸ hidle) hstdin hbacklog hdatagrams
    · cases h
      exact .begins hphase hstdin hbacklog hdatagrams hclient hready
    · have hlen := clientFds_length l.server
      have hpos := List.length_pos_of_mem hclient
      omega
  · rename_i newFd peer hphase
    obtain ⟨⟨p, rest⟩, hfront, h⟩ := bind_eq_ok.mp h
    obtain ⟨⟨server, retId, effects⟩, hhandled, h⟩ := bind_eq_ok.mp h
    obtain ⟨opened, htold, he⟩ := bind_eq_ok.mp h
    cases he
    exact .admits hphase (receive_eq_ok.mp hfront) (mapError_eq_ok.mp hhandled)
      (mapError_eq_ok.mp htold)
  · rename_i i revents cleared hphase
    rw [Loop.visit] at h
    by_cases hlt : i < l.server.svFds.count
    · rw [if_pos hlt] at h
      by_cases hflag : revents.getD i 0 &&& pollin = 0
      · rw [if_neg (not_not.mpr hflag)] at h
        cases h
        exact .passes hphase hlt hflag
      · rw [if_pos hflag] at h
        obtain ⟨⟨p, rest⟩, hfront, h⟩ := bind_eq_ok.mp h
        obtain ⟨⟨server, effects⟩, hhandled, h⟩ := bind_eq_ok.mp h
        obtain ⟨opened, htold, he⟩ := bind_eq_ok.mp h
        cases he
        exact .serves hphase hlt hflag rfl (receive_eq_ok.mp hfront) (mapError_eq_ok.mp hhandled)
          (mapError_eq_ok.mp htold)
    · rw [if_neg hlt] at h
      cases h
      exact .completes hphase (Nat.le_of_not_lt hlt)
  · cases h

def Flagged (revents : List ℕ) (i : ℕ) : Prop := revents.getD i 0 &&& pollin ≠ 0

/-- The new descriptor was not open. A pass over the clients has a flag for each entry, and in front
of its first packet a flagged client is still to come. -/
def PhaseInvariant (l : Loop) : Prop :=
  match l.phase with
  | .admitting fd _ => fd ∉ l.opened
  | .serving i revents cleared => 3 ≤ i ∧ revents.length = l.server.svFds.count ∧
      (cleared = true → ∃ j, i ≤ j ∧ j < l.server.svFds.count ∧ Flagged revents j)
  | _ => True

structure Follows (k : Sockets) (l : Loop) (s : Sys) : Prop where
  inv : SysInvariant k s
  server : l.server = s.server
  opened : l.opened = s.opened
  phase : PhaseInvariant l

theorem follows_begin (k : Sockets) : Follows k (begin k) (start k) :=
  ⟨sysInvariant_start k, rfl, rfl, trivial⟩

private theorem step_connect_eq {fd : ℕ} {peer : SockAddrIn} {p : Packet} {server : Server}
    {retId : Option Bytes} {effects : List Effect} {opened : List ℕ} (free : fd ∉ s.opened)
    (handled : s.server.acceptBranch fd peer p = .ok (server, retId, effects))
    (told : perform (fd :: s.opened) effects = .ok opened) : ∃ s',
      step s (.connect fd peer p) = .ok (s', effects) ∧ s'.server = server ∧ s'.opened = opened := by
  cases retId with
  | none =>
    refine ⟨{ s with server := server, opened := opened }, ?_, rfl, rfl⟩
    simp only [step, if_neg free, handled, told, Except.mapError, ok_bind]
  | some id =>
    refine ⟨⟨server, opened, ⟨s.admitted.length, fd, p.text⟩ :: s.admitted,
      s.live ++ [⟨s.admitted.length, fd, p.text⟩]⟩, ?_, rfl, rfl⟩
    simp only [step, if_neg free, handled, told, Except.mapError, ok_bind]

private theorem step_packet_eq {fd : ℕ} {cleared : Bool} {p : Packet} {server : Server}
    {effects : List Effect} {opened : List ℕ} (client : fd ∈ clientFds s.server)
    (handled : (if cleared then s.server.clearBuffer else s.server).parseTcpClientMessage fd p =
      .ok (server, effects)) (told : perform s.opened effects = .ok opened) : ∃ s',
      step s (.packet cleared fd p) = .ok (s', effects) ∧ s'.server = server ∧
        s'.opened = opened := by
  refine ⟨⟨server, opened, s.admitted, s.live.filter (fun c => c.fd ∈ clientFds server)⟩, ?_,
    rfl, rfl⟩
  rw [step, if_neg (not_not.mpr client)]
  simp only [handled, told, Except.mapError, ok_bind]

private theorem step_datagram_eq {src : SockAddrIn} {data : Bytes} {heap : Memory} {server : Server}
    {effects : List Effect} {opened : List ℕ}
    (handled : s.server.udpBranch src data heap = .ok (server, effects))
    (told : perform s.opened effects = .ok opened) : ∃ s',
      step s (.datagram src data heap) = .ok (s', effects) ∧ s'.server = server ∧
        s'.opened = opened := by
  refine ⟨{ s with server := server, opened := opened }, ?_, rfl, rfl⟩
  simp only [step, handled, told, Except.mapError, ok_bind]

/-- The entries behind the third are the live connections in their order. -/
theorem exists_split_at (h : SysInvariant k s) {i : ℕ} (hi : 3 ≤ i)
    (hlt : i < s.server.svFds.count) : ∃ before c behind, s.live = before ++ c :: behind ∧
      i = 3 + before.length ∧ (s.server.svFds.entries.getD i default).fd = c.fd := by
  obtain ⟨j, rfl⟩ := Nat.exists_eq_add_of_le hi
  rw [count_eq h] at hlt
  have hj : j < s.live.length := Nat.lt_of_add_lt_add_left hlt
  refine ⟨s.live.take j, s.live[j], s.live.drop (j + 1), by simp, ?_, ?_⟩
  · rw [List.length_take_of_le hj.le]
  · rw [List.getD_eq_getElem?_getD, entries_add h, List.getElem?_eq_getElem hj]
    rfl

/-- The flags move with the entries. -/
theorem moveRevents_eq (h : SysInvariant k s) {before behind : List Connection} {c : Connection}
    (hlive : s.live = before ++ c :: behind) {revents : List ℕ}
    (hlen : revents.length = s.server.svFds.count) (p : Packet) :
    Pass.moveRevents ⟨s.server, revents, fun _ => [], [], []⟩ c.fd p =
      if p.action = shutdownClose then revents.eraseIdx (3 + before.length) else revents := by
  obtain ⟨-, hidx, -⟩ := h.lookups hlive
  have hlt : 3 + before.length < revents.length := by
    rw [hlen, count_eq h, hlive, List.length_append, List.length_cons]
    omega
  have hfront : (basicEntries k ++ before.map Connection.entry).length = 3 + before.length := by
    rw [List.length_append, List.length_map]
    rfl
  rw [hfront] at hidx
  rw [Pass.moveRevents]
  dsimp only
  rw [hidx]
  split_ifs
  · exact RemovalLoop.removeAt_eq_eraseIdx hlt
  · rfl

theorem segment_cases {place : Place} {seg : Segment}
    (h : l.arrive (.segment place seg) = some l') :
    (∃ j peer socket socket', place = .waiting j ∧ l.backlog[j]? = some (peer, socket) ∧
      socket.push seg = some socket' ∧
      l' = { l with backlog := l.backlog.set j (peer, socket') }) ∨
    ∃ fd socket', place = .accepted fd ∧ l.Has fd ∧ (l.sockets fd).push seg = some socket' ∧
      l' = { l with sockets := Function.update l.sockets fd socket' } := by
  cases place with
  | waiting j =>
    obtain ⟨⟨peer, socket⟩, hj, h⟩ := Option.bind_eq_some_iff.mp h
    obtain ⟨socket', hpush, h⟩ := Option.bind_eq_some_iff.mp h
    exact .inl ⟨j, peer, socket, socket', rfl, hj, hpush, (Option.some.inj h).symm⟩
  | accepted fd =>
    rw [Loop.arrive] at h
    split_ifs at h with hhas
    obtain ⟨socket', hpush, h⟩ := Option.bind_eq_some_iff.mp h
    exact .inr ⟨fd, socket', rfl, hhas, hpush, (Option.some.inj h).symm⟩

/-- The kernel's side changes what it holds, and nothing else. -/
theorem arrive_globals {a : Arrival} (h : l.arrive a = some l') :
    l'.phase = l.phase ∧ l'.server = l.server ∧ l'.opened = l.opened := by
  cases a with
  | typed =>
    cases h
    exact ⟨rfl, rfl, rfl⟩
  | connects peer =>
    cases h
    exact ⟨rfl, rfl, rfl⟩
  | datagram src data =>
    cases h
    exact ⟨rfl, rfl, rfl⟩
  | segment place seg =>
    rcases segment_cases h with ⟨j, peer, socket, socket', -, -, -, rfl⟩ | ⟨fd, socket', -, -, -, rfl⟩
    · exact ⟨rfl, rfl, rfl⟩
    · exact ⟨rfl, rfl, rfl⟩

theorem Follows.arrive (h : Follows k l s) {a : Arrival} (ha : l.arrive a = some l') :
    Follows k l' s := by
  obtain ⟨hphase, hserver, hopened⟩ := arrive_globals ha
  refine ⟨h.inv, hserver.trans h.server, hopened.trans h.opened, ?_⟩
  rw [PhaseInvariant, hphase, hserver, hopened]
  exact h.phase

theorem Follows.serving (h : Follows k l s) {i : ℕ} {revents : List ℕ} {cleared : Bool}
    (hphase : l.phase = .serving i revents cleared) :
    3 ≤ i ∧ revents.length = s.server.svFds.count ∧
      (cleared = true → ∃ j, i ≤ j ∧ j < s.server.svFds.count ∧ Flagged revents j) := by
  have hp := h.phase
  rw [PhaseInvariant, hphase, h.server] at hp
  exact hp

theorem poll_getD {j fd : ℕ} (h : (clientFds l.server)[j]? = some fd) :
    l.poll.getD (3 + j) 0 = Loop.flag (Loop.readable (l.sockets fd)) := by
  rw [Loop.poll, List.getD_eq_getElem?_getD, List.getElem?_append_right (Nat.le_add_right 3 j)]
  simp [h]

theorem Follows.length_poll (h : Follows k l s) : l.poll.length = l.server.svFds.count := by
  rw [Loop.poll, List.length_append, List.length_map, clientFds_length, h.server,
    count_eq h.inv, Nat.add_sub_cancel_left]
  rfl

/-- Behind a packet there is a flag for each entry that is left. -/
theorem length_moveRevents (h : SysInvariant k s) {i fd : ℕ} {revents : List ℕ}
    (hi : 3 ≤ i) (hlt : i < s.server.svFds.count) (hlen : revents.length = s.server.svFds.count)
    (hentry : (s.server.svFds.entries.getD i default).fd = fd) {cleared : Bool} {p : Packet}
    {s' : Sys} {effects : List Effect} (hs : step s (.packet cleared fd p) = .ok (s', effects)) :
    (Pass.moveRevents ⟨s.server, revents, fun _ => [], [], []⟩ fd p).length =
      s'.server.svFds.count := by
  obtain ⟨before, c, behind, hlive, hidx, hfd⟩ := exists_split_at h hi hlt
  rw [hfd] at hentry
  subst hentry
  have h' := sysInvariant_step h hs
  have hfds := clientFds_step h hs
  rw [track, h.clientFds_eq, h'.clientFds_eq] at hfds
  have hcount := congrArg List.length hfds
  rw [List.length_map] at hcount
  rw [moveRevents_eq h hlive hlen, count_eq h', hcount]
  rw [count_eq h, hlive] at hlen
  have hnodup : ((before ++ c :: behind).map Connection.fd).Nodup := hlive ▸ h.liveFds
  split_ifs
  · rw [List.filter_map, List.length_map, hlive]
    have hgone := filter_fd_ne hnodup
    change _ = 3 + ((before ++ c :: behind).filter (fun d => d.fd ≠ c.fd)).length
    rw [hgone, List.length_eraseIdx_of_lt (by rw [hlen]; simp), hlen]
    simp only [List.length_append, List.length_cons]
    omega
  · rw [hlen, List.length_map, hlive]

/-- A turn is a step of the server, or it leaves the globals as they are. -/
theorem follows_step (h : Follows k l s) {t : Turn} (hs : loopStep l t = .ok (l', r)) :
    Stutters step (Follows k) s l' r.event := by
  have hserver := h.server
  have hopened := h.opened
  cases t with
  | arrival a =>
    rw [loopStep] at hs
    split at hs
    · rename_i l₁ ha
      cases hs
      exact .stays (h.arrive ha)
    · cases hs
  | server fd heap =>
    cases moves_of_turn hs with
    | exits phase stdin told => exact .stays ⟨h.inv, h.server, h.opened, trivial⟩
    | accepts phase stdin front free => exact .stays ⟨h.inv, h.server, h.opened, free⟩
    | takes phase stdin backlog front handled told =>
      rw [hserver] at handled
      rw [hopened] at told
      obtain ⟨s', hstep, rfl, rfl⟩ := step_datagram_eq handled told
      refine .moves hstep ⟨sysInvariant_step h.inv hstep, rfl, rfl, ?_⟩
      simp only [PhaseInvariant, phase]
    | @begins fd phase stdin backlog datagrams client ready =>
      obtain ⟨j, hj⟩ := List.mem_iff_getElem?.mp client
      refine .stays ⟨h.inv, h.server, h.opened, Nat.le_refl 3, h.length_poll, ?_⟩
      intro _
      refine ⟨3 + j, Nat.le_add_right 3 j, ?_, ?_⟩
      · have hlt := (List.getElem?_eq_some_iff.mp hj).1
        rw [clientFds_length] at hlt
        exact Nat.add_lt_of_lt_sub' hlt
      · rw [Flagged, poll_getD hj]
        exact (flag_and_pollin _).mpr ready
    | @admits fd peer p rest server retId effects opened phase front handled told =>
      have free := h.phase
      rw [PhaseInvariant, phase] at free
      rw [hserver] at handled
      rw [hopened] at told free
      obtain ⟨s', hstep, rfl, rfl⟩ := step_connect_eq free handled told
      exact .moves hstep ⟨sysInvariant_step h.inv hstep, rfl, rfl, trivial⟩
    | @serves i fd revents cleared p rest server effects opened phase lt flagged entry front
        handled told =>
      obtain ⟨hi, hlen, -⟩ := h.serving phase
      rw [hserver] at handled lt entry
      rw [hopened] at told
      have hclient := fd_mem_clientFds hi lt
      rw [entry] at hclient
      obtain ⟨s', hstep, rfl, rfl⟩ := step_packet_eq hclient handled told
      refine .moves hstep ⟨sysInvariant_step h.inv hstep, rfl, rfl,
        Nat.le_succ_of_le hi, ?_, ?_⟩
      · rw [hserver]
        exact length_moveRevents h.inv hi lt hlen entry hstep
      · exact fun hcleared => by cases hcleared
    | @passes i revents cleared phase lt unflagged =>
      obtain ⟨hi, hlen, hcoming⟩ := h.serving phase
      refine .stays ⟨h.inv, h.server, h.opened, Nat.le_succ_of_le hi, h.server ▸ hlen, ?_⟩
      intro hcleared
      obtain ⟨j, hij, hj, hflag⟩ := hcoming hcleared
      have hne : i ≠ j := fun he => hflag (he ▸ unflagged)
      exact ⟨j, Nat.lt_of_le_of_ne hij hne, h.server ▸ hj, hflag⟩
    | completes phase ge => exact .stays ⟨h.inv, h.server, h.opened, trivial⟩

theorem exists_follows_step (h : Follows k l s) {t : Turn} (hs : loopStep l t = .ok (l', r)) :
    ∃ s', Follows k l' s' := by
  have hstep := follows_step h hs
  generalize r.event = seen at hstep
  cases hstep with
  | stays h' => exact ⟨s, h'⟩
  | moves _ h' => exact ⟨_, h'⟩

/-- The client entries change with what is handled, and with nothing else. -/
theorem clientFds_loopStep (h : Follows k l s) {t : Turn} (hs : loopStep l t = .ok (l', r)) :
    clientFds l'.server = r.event.elim (clientFds l.server) (track (clientFds l.server)) := by
  have hstep := follows_step h hs
  generalize r.event = seen at hstep
  cases hstep with
  | stays h' =>
    rw [h'.server, h.server]
    rfl
  | moves hstep h' =>
    rw [h'.server, h.server]
    exact clientFds_step h.inv hstep

theorem Follows.nodup (h : Follows k l s) : (clientFds l.server).Nodup := by
  rw [h.server, h.inv.clientFds_eq]
  exact h.inv.liveFds

/-- The client that is served among the others. -/
theorem Follows.split (h : Follows k l s) {i fd : ℕ} {revents : List ℕ} {cleared : Bool}
    (phase : l.phase = .serving i revents cleared) (lt : i < l.server.svFds.count)
    (entry : (l.server.svFds.entries.getD i default).fd = fd) :
    ∃ before behind, clientFds l.server = before ++ fd :: behind ∧ i = 3 + before.length := by
  obtain ⟨hi, -, -⟩ := h.serving phase
  rw [h.server] at lt entry
  obtain ⟨before, c, behind, hlive, hidx, hfd⟩ := exists_split_at h.inv hi lt
  refine ⟨before.map Connection.fd, behind.map Connection.fd, ?_, ?_⟩
  · rw [h.server, h.inv.clientFds_eq, hlive, List.map_append, List.map_cons, ← entry, hfd]
  · rw [hidx, List.length_map]

/-- What a run of the loop handles is a run of the server, with the same globals at its end and
the same effects. -/
theorem loop_follows_runs {turns : List Turn} {reports : List Report}
    (hr : run loopStep (begin k) turns = .ok (l, reports)) : ∃ s,
      run step (start k) ((reports.filterMap Report.event).map Prod.fst) =
        .ok (s, (reports.filterMap Report.event).map Prod.snd) ∧ Follows k l s :=
  run_of_stuttering (fun _ _ _ _ _ h hs => follows_step h hs) (follows_begin k) hr

def attend : Turn := .server 0 (fun _ => 0)

/-- A subscriber connects with an ID of one letter, and is admitted. -/
def comes (fd : ℕ) (c : Char) : List Turn :=
  [.arrival (.connects ⟨4000, samplePort_lt, (127, 0, 0, 1)⟩),
    .arrival (.segment (.waiting 0) (.data (letterPacket connectAction c).bytes)),
    .server fd (fun _ => 0), attend]

def sends (fd : ℕ) (p : Packet) : Turn := .arrival (.segment (.accepted fd) (.data p.bytes))

/-- Three subscribers, of which the first leaves and the others subscribe. -/
def crowded : List Turn :=
  comes 5 'A' ++ comes 6 'B' ++ comes 7 'C' ++ [sends 5 shutdownPacket,
    sends 6 (letterPacket subscribeAction 'p'), sends 7 (letterPacket subscribeAction 'q')]

/-- In the first pass `B` is passed over, because `A` leaves in front of it. -/
theorem loop_follows_runs_crowded : ∃ l reports s,
    run loopStep (begin sampleSockets) (crowded ++ List.replicate 8 attend) = .ok (l, reports) ∧
      clientFds l.server = [6, 7] ∧
      run step (start sampleSockets) ((reports.filterMap Report.event).map Prod.fst) =
        .ok (s, (reports.filterMap Report.event).map Prod.snd) ∧ Follows sampleSockets l s := by
  have hrun : completesIn loopStep (fun l _ => clientFds l.server = [6, 7]) (begin sampleSockets)
      (crowded ++ List.replicate 8 attend) = true := by decide +kernel
  obtain ⟨l, reports, hr, ht⟩ := exists_run_of_completesIn hrun
  obtain ⟨s, hs, hfollows⟩ := loop_follows_runs hr
  exact ⟨l, reports, s, hr, of_decide_eq_true ht, hs, hfollows⟩

end MessageBroker.ServiceLoop
