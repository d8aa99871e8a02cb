import MessageBroker.InputBuffering
import MessageBroker.ServiceLoop
import MessageBroker.SubscriberOutput

/-!
# The loop of a subscriber

`run_subscriber` with `poll` and the two calls in which it can block, `fgets` and `recv`. What is
typed and what the server sends arrive at any time, and the program takes one turn after the
other. The end of standard input is left out.
-/
namespace MessageBroker.SubscriberLoop
open ByteStrings WireFormat ServerStops StandardInput CommandLine Notification SubscriberHandlers
open TransitionRuns ClientLinks ServicePass SubscriberOutput
open InputBuffering (Console Complete)
open ServiceLoop (Socket Segment)

/-- `receiving` says that `poll` has returned for the connection, and `recv_tcp_packet` not yet. -/
structure Program where
  console : Console
  socket : Socket
  receiving : Bool

inductive Arrival
  | typed (bs : Bytes)
  | segment (seg : Segment)

/-- A turn of the program comes with the count that `read` returns. -/
inductive Turn
  | arrival (a : Arrival)
  | program (n : ℕ)

inductive Report
  | quiet
  | obeyed (line : Bytes) (reaction : Reaction)
  | received (p : Packet) (reaction : Reaction)

/-- Why the program takes no turn: it waits in `poll`, in the `read` of `fgets`, or in `recv`. -/
inductive Block
  | impossible
  | waiting
  | reading
  | receiving
  | finished
  | failed (fault : Fault)
  deriving DecidableEq

namespace Program

def arrive (l : Program) : Arrival → Option Program
  | .typed bs => some { l with console := { l.console with
      kernel := l.console.kernel ++ bs
      arrived := l.console.arrived ++ bs } }
  | .segment seg => (l.socket.push seg).map fun socket => { l with socket := socket }

/-- The branch of standard input with the bytes that `stdio` holds. -/
def parse (connectionFd : ℕ) (l : Program) (console : Console) (held : Bytes) :
    Except Block (Program × Report) :=
  match InputBuffering.serve connectionFd console held with
  | .ok (console, some reaction) =>
    .ok ({ l with console := console }, .obeyed (nextChunk held) reaction)
  | .ok (console, none) => .ok ({ l with console := console }, .quiet)
  | .error (.fault fault) => .error (.failed fault)
  | .error .impossible => .error .impossible

/-- The branch of the connection. At the end of the stream `recv` returns `0` again and again. -/
def receive (connectionFd : ℕ) (l : Program) : Except Block (Program × Report) :=
  match frontPacket l.socket.unread with
  | some (p, rest) =>
    if p.bytes.length ≤ maxLen then do
      let reaction ← (socketBranch connectionFd (Memory.store (fun _ => 0) 0 p.bytes)).mapError
        (fun why => Block.failed (.stop why))
      .ok ({ l with
        console := { l.console with phase := if reaction.exits then .exited else .polling }
        socket := ⟨rest, l.socket.ended⟩
        receiving := false }, .received p reaction)
    else .error (.failed (.stop .outsideBuff))
  | none =>
    if l.socket.unread.length ≤ maxLen then .error .receiving
    else .error (.failed (.stop .outsideBuff))

/-- The branches of the loop in their order. -/
def turn (connectionFd : ℕ) (l : Program) (n : ℕ) : Except Block (Program × Report) :=
  match l.console.phase with
  | .polling =>
    if l.receiving then l.receive connectionFd
    else if l.console.kernel ≠ [] then l.parse connectionFd l.console l.console.stdio
    else if ServiceLoop.Loop.readable l.socket then .ok ({ l with receiving := true }, .quiet)
    else .error .waiting
  | .reading =>
    if l.console.kernel = [] then .error .reading
    else if 1 ≤ n ∧ n ≤ l.console.kernel.length then
      l.parse connectionFd { l.console with kernel := l.console.kernel.drop n }
        (l.console.stdio ++ l.console.kernel.take n)
    else .error .impossible
  | .exited => .error .finished

end Program

def programStep (connectionFd : ℕ) : Transition Program Turn Report Block
  | l, .arrival a =>
    match l.arrive a with
    | some l => .ok (l, .quiet)
    | none => .error .impossible
  | l, .program n => l.turn connectionFd n

/-- The program as `connect_to_server` leaves it. -/
def begin : Program := ⟨InputBuffering.start, ⟨[], false⟩, false⟩

variable {connectionFd : ℕ} {l l' : Program} {r : Report}

/-- What `fgets` has when it returns or waits, and what stays in the kernel: it has looked at what
`stdio` holds, or has read some more. -/
inductive Offers (l : Program) : Bytes → Bytes → Prop
  | held (phase : l.console.phase = .polling) (free : l.receiving = false)
      (typed : l.console.kernel ≠ []) : Offers l l.console.stdio l.console.kernel
  | read {n : ℕ} (phase : l.console.phase = .reading) (positive : 1 ≤ n)
      (available : n ≤ l.console.kernel.length) :
      Offers l (l.console.stdio ++ l.console.kernel.take n) (l.console.kernel.drop n)

/-- The turns that the program completes, with all that was tested for them. -/
inductive Moves (connectionFd : ℕ) (l : Program) : Program → Report → Prop
  | obeys {held kernel : Bytes} {reaction : Reaction} (offers : Offers l held kernel)
      (complete : Complete held) (text : untilNul (nextChunk held) ≠ [])
      (obeyed : reply connectionFd (command (nextChunk held)) = .ok reaction) :
      Moves connectionFd l { l with console := {
        kernel := kernel
        stdio := held.drop (nextChunk held).length
        phase := if reaction.exits then .exited else .polling
        arrived := l.console.arrived
        acted := l.console.acted ++ [nextChunk held] } } (.obeyed (nextChunk held) reaction)
  | reads {held kernel : Bytes} (offers : Offers l held kernel) (incomplete : ¬ Complete held) :
      Moves connectionFd l { l with console := { l.console with
        kernel := kernel
        stdio := held
        phase := .reading } } .quiet
  | answers (phase : l.console.phase = .polling) (free : l.receiving = false)
      (untyped : l.console.kernel = []) (ready : ServiceLoop.Loop.readable l.socket = true) :
      Moves connectionFd l { l with receiving := true } .quiet
  | receives {p : Packet} {rest : Bytes} {reaction : Reaction}
      (phase : l.console.phase = .polling) (busy : l.receiving = true)
      (front : frontPacket l.socket.unread = some (p, rest)) (fits : p.bytes.length ≤ maxLen)
      (branch : socketBranch connectionFd (Memory.store (fun _ => 0) 0 p.bytes) = .ok reaction) :
      Moves connectionFd l { l with
        console := { l.console with phase := if reaction.exits then .exited else .polling }
        socket := ⟨rest, l.socket.ended⟩
        receiving := false } (.received p reaction)

/-- With a complete line the call has answered it, without one it waits. -/
theorem serve_cases {console console' : Console} {held : Bytes} {o : Option Reaction}
    (h : InputBuffering.serve connectionFd console held = .ok (console', o)) :
    (∃ reaction, o = some reaction ∧ Complete held ∧ untilNul (nextChunk held) ≠ [] ∧
      reply connectionFd (command (nextChunk held)) = .ok reaction ∧
      console' = {
        kernel := console.kernel
        stdio := held.drop (nextChunk held).length
        phase := if reaction.exits then .exited else .polling
        arrived := console.arrived
        acted := console.acted ++ [nextChunk held] }) ∨
    o = none ∧ ¬ Complete held ∧ console' = { console with stdio := held, phase := .reading } := by
  by_cases hc : Complete held
  · left
    rw [InputBuffering.serve, if_pos hc] at h
    dsimp only at h
    by_cases hempty : untilNul (nextChunk held) = []
    · rw [parseChunk_empty connectionFd _ (length_nextChunk_lt held) hempty] at h
      cases h
    · rw [parseChunk_reply connectionFd (length_nextChunk_lt held) hempty] at h
      cases hreply : reply connectionFd (command (nextChunk held)) with
      | error fault =>
        rw [hreply] at h
        cases h
      | ok reaction =>
        rw [hreply] at h
        cases h
        exact ⟨reaction, rfl, hc, hempty, rfl, rfl⟩
  · right
    rw [InputBuffering.serve_incomplete hc] at h
    cases h
    exact ⟨rfl, hc, rfl⟩

private theorem moves_of_parse {held kernel : Bytes} (offers : Offers l held kernel)
    (h : l.parse connectionFd { l.console with kernel := kernel } held = .ok (l', r)) :
    Moves connectionFd l l' r := by
  rw [Program.parse] at h
  split at h
  · rename_i console reaction hserve
    cases h
    rcases serve_cases hserve with ⟨reaction', he, hc, htext, hreply, rfl⟩ | ⟨he, -, -⟩
    · cases he
      exact .obeys offers hc htext hreply
    · cases he
  · rename_i console hserve
    cases h
    rcases serve_cases hserve with ⟨reaction', he, -⟩ | ⟨-, hc, rfl⟩
    · cases he
    · exact .reads offers hc
  · cases h
  · cases h

theorem moves_of_turn {n : ℕ} (h : l.turn connectionFd n = .ok (l', r)) :
    Moves connectionFd l l' r := by
  rw [Program.turn] at h
  split at h
  · rename_i hphase
    split_ifs at h with hbusy htyped hready
    · rw [Program.receive] at h
      split at h
      · rename_i p rest hfront
        split_ifs at h with hfits
        obtain ⟨reaction, hbranch, he⟩ := bind_eq_ok.mp h
        cases he
        exact .receives hphase hbusy hfront hfits (mapError_eq_ok.mp hbranch)
      · split_ifs at h
    · exact moves_of_parse (.held hphase (Bool.eq_false_iff.mpr hbusy) htyped) h
    · cases h
      exact .answers hphase (Bool.eq_false_iff.mpr hbusy) (not_not.mp htyped) hready
  · rename_i hphase
    split_ifs at h with hempty hcount
    exact moves_of_parse (.read hphase hcount.1 hcount.2) h
  · cases h

/-- The packets that are sent. -/
def sentPackets (reaction : Reaction) : List Packet :=
  (sends reaction.effects).filterMap (fun q => (frontPacket q.2).map Prod.fst)

theorem sentPackets_of_sends {reaction : Reaction} {fd : ℕ} {p : Packet}
    (h : sends reaction.effects = [(fd, p.bytes)]) : sentPackets reaction = [p] := by
  have hfront := frontPacket_append p []
  rw [List.append_nil] at hfront
  simp [sentPackets, h, hfront]

/-- What a command sends. -/
inductive Replies (connectionFd : ℕ) (reaction : Reaction) : Prop
  | leaves (exits : reaction.exits = true)
      (sent : sends reaction.effects = [(connectionFd, shutdownPacket.bytes)])
  | requests {p : Packet} (exits : reaction.exits = false)
      (action : p.action = subscribeAction ∨ p.action = unsubscribeAction)
      (sent : sends reaction.effects = [(connectionFd, p.bytes)])
  | rejects (exits : reaction.exits = false) (sent : sends reaction.effects = [])

theorem replies_of_reply {line : Bytes} {reaction : Reaction}
    (h : reply connectionFd line = .ok reaction) : Replies connectionFd reaction := by
  have hrequest {action : UInt8} {announcement w : Bytes}
      (haction : action = subscribeAction ∨ action = unsubscribeAction)
      (hr : requestIfFits action announcement connectionFd w = .ok reaction) :
      Replies connectionFd reaction := by
    rw [requestIfFits] at hr
    split_ifs at hr with hlen
    cases hr
    have hfits : w.length + 1 ≤ maxLen - sizeofTcpHdr := by
      simp only [maxTopic, maxLen, sizeofTcpHdr] at hlen ⊢
      omega
    refine .requests (p := stringPacket action w hfits) rfl haction ?_
    rw [Packet.bytes, stringPacket, List.length_append]
    rfl
  rw [reply] at h
  split_ifs at h
  · cases h
    refine .leaves rfl ?_
    rw [handleShutdown_eq]
    rfl
  · exact hrequest (.inl rfl) h
  · exact hrequest (.inr rfl) h
  · cases h
    exact .rejects rfl rfl

theorem sends_eq_sentPackets {reaction : Reaction} (h : Replies connectionFd reaction) :
    (sends reaction.effects).flatMap Prod.snd = (sentPackets reaction).flatMap Packet.bytes := by
  cases h with
  | leaves exits sent => simp [sentPackets_of_sends sent, sent]
  | requests exits action sent => simp [sentPackets_of_sends sent, sent]
  | rejects exits sent => simp [sentPackets, sent]

/-- A packet ends the program exactly if it is a refusal or a farewell. -/
theorem exits_of_branch {buff : Memory} {reaction : Reaction}
    (h : socketBranch connectionFd buff = .ok reaction) :
    reaction.exits = true ↔ buff 0 = shutdownIntruder ∨ buff 0 = shutdownClose := by
  rw [socketBranch] at h
  split_ifs at h with hintruder hclose hnotification
  · cases h
    exact iff_of_true rfl (.inl hintruder)
  · cases h
    exact iff_of_true rfl (.inr hclose)
  · obtain ⟨notice, -, he⟩ := bind_eq_ok.mp h
    cases he
    exact iff_of_false Bool.false_ne_true (not_or.mpr ⟨hintruder, hclose⟩)
  · cases h
    exact iff_of_false Bool.false_ne_true (not_or.mpr ⟨hintruder, hclose⟩)

def typedBy : Turn → Bytes
  | .arrival (.typed bs) => bs
  | _ => []

/-- The line that is typed is not complete, nor becomes so by what is typed in these turns. -/
def LineOpen (l : Program) (turns : List Turn) : Prop :=
  l.console.phase = .reading ∧
    ¬ Complete (l.console.stdio ++ l.console.kernel ++ turns.flatMap typedBy)

/-- The packet that is received is not complete, and nothing comes behind it. -/
def PacketOpen (l : Program) (turns : List Turn) : Prop :=
  l.console.phase = .polling ∧ l.receiving = true ∧ frontPacket l.socket.unread = none ∧
    (l.socket.ended = true ∨ ∀ seg, .arrival (.segment seg) ∉ turns)

private theorem complete_mono {a b : Bytes} (h : a <+: b) (hc : Complete a) : Complete b :=
  hc.imp (fun hmem => h.subset hmem) (fun hle => hle.trans h.length_le)

theorem append_of_offers {held kernel : Bytes} (h : Offers l held kernel) :
    held ++ kernel = l.console.stdio ++ l.console.kernel := by
  cases h with
  | held => rfl
  | read => rw [List.append_assoc, List.take_append_drop]

theorem arrive_typed {bs : Bytes} (h : l.arrive (.typed bs) = some l') :
    l' = { l with console := { l.console with
      kernel := l.console.kernel ++ bs
      arrived := l.console.arrived ++ bs } } := by
  cases h
  rfl

theorem arrive_segment {seg : Segment} (h : l.arrive (.segment seg) = some l') :
    ∃ socket, l.socket.push seg = some socket ∧ l' = { l with socket := socket } := by
  obtain ⟨socket, hpush, rfl⟩ := Option.map_eq_some_iff.mp h
  exact ⟨socket, hpush, rfl⟩

theorem arrival_cases {a : Arrival} (h : programStep connectionFd l (.arrival a) = .ok (l', r)) :
    l.arrive a = some l' ∧ r = .quiet := by
  rw [programStep] at h
  split at h
  · rename_i l₁ ha
    cases h
    exact ⟨ha, rfl⟩
  · cases h

private theorem lineOpen_step {t : Turn} {turns : List Turn} (h : LineOpen l (t :: turns))
    (hs : programStep connectionFd l t = .ok (l', r)) : LineOpen l' turns ∧ r = .quiet := by
  obtain ⟨hphase, hopen⟩ := h
  cases t with
  | arrival a =>
    obtain ⟨ha, rfl⟩ := arrival_cases hs
    cases a with
    | typed bs =>
      rw [arrive_typed ha]
      refine ⟨⟨hphase, ?_⟩, rfl⟩
      rw [List.flatMap_cons, ← List.append_assoc] at hopen
      rw [← List.append_assoc]
      exact hopen
    | segment seg =>
      obtain ⟨socket, -, rfl⟩ := arrive_segment ha
      exact ⟨⟨hphase, hopen⟩, rfl⟩
  | program n =>
    have hrest : ∀ held kernel, Offers l held kernel → held <+: l.console.stdio ++ l.console.kernel ++
        turns.flatMap typedBy := by
      intro held kernel offers
      rw [← append_of_offers offers, List.append_assoc]
      exact List.prefix_append _ _
    cases moves_of_turn hs with
    | obeys offers complete => exact absurd (complete_mono (hrest _ _ offers) complete) hopen
    | reads offers incomplete =>
      refine ⟨⟨rfl, ?_⟩, rfl⟩
      rw [append_of_offers offers]
      exact hopen
    | answers phase => rw [hphase] at phase; cases phase
    | receives phase => rw [hphase] at phase; cases phase

private theorem packetOpen_step {t : Turn} {turns : List Turn} (h : PacketOpen l (t :: turns))
    (hs : programStep connectionFd l t = .ok (l', r)) : PacketOpen l' turns ∧ r = .quiet := by
  obtain ⟨hphase, hbusy, hfront, hsilent⟩ := h
  have hlater : l.socket.ended = true ∨ ∀ seg, .arrival (.segment seg) ∉ turns :=
    hsilent.imp_right fun hno seg hmem => hno seg (List.mem_cons_of_mem t hmem)
  cases t with
  | arrival a =>
    obtain ⟨ha, rfl⟩ := arrival_cases hs
    cases a with
    | typed bs =>
      rw [arrive_typed ha]
      exact ⟨⟨hphase, hbusy, hfront, hlater⟩, rfl⟩
    | segment seg =>
      obtain ⟨socket, hpush, rfl⟩ := arrive_segment ha
      rcases hsilent with hended | hno
      · cases seg <;> simp [Socket.push, hended] at hpush
      · exact absurd List.mem_cons_self (hno seg)
  | program n =>
    cases moves_of_turn hs with
    | obeys offers =>
      cases offers with
      | held _ free => rw [hbusy] at free; cases free
      | read phase => rw [hphase] at phase; cases phase
    | reads offers =>
      cases offers with
      | held _ free => rw [hbusy] at free; cases free
      | read phase => rw [hphase] at phase; cases phase
    | answers _ free => rw [hbusy] at free; cases free
    | receives _ _ front => rw [hfront] at front; cases front

/-- The program waits for the rest of a line or of a packet. -/
def Unfinished (l : Program) (turns : List Turn) : Prop := LineOpen l turns ∨ PacketOpen l turns

/-- As long as a line or a packet is unfinished nothing is sent, shown or obeyed: a line that is
begun holds back all notices, and a packet that is begun holds back all commands, `exit` among them.
When the server has closed its end in the middle of a packet or without a farewell, this is for
ever. -/
theorem held_back {turns : List Turn} {reports : List Report} (h : Unfinished l turns)
    (hr : run (programStep connectionFd) l turns = .ok (l', reports)) :
    Unfinished l' [] ∧ ∀ r ∈ reports, r = .quiet := by
  refine outputs_of_ahead ?_ h hr
  rintro l t turns l' r (hline | hpacket) hs
  · obtain ⟨h', hquiet⟩ := lineOpen_step hline hs
    exact ⟨.inl h', hquiet⟩
  · obtain ⟨h', hquiet⟩ := packetOpen_step hpacket hs
    exact ⟨.inr h', hquiet⟩

/-- The server is gone without a farewell; the command is typed in vain. -/
theorem held_back_gone : ∃ l l' reports, Reachable (programStep 3) begin l ∧
    run (programStep 3) l [.arrival (.typed (ascii "exit\n"))] = .ok (l', reports) ∧
      Unfinished l' [] ∧ ∀ r ∈ reports, r = .quiet := by
  have hrun : completesIn (programStep 3) (fun l _ => decide (l.console.phase = .polling ∧
      l.receiving = true ∧ frontPacket l.socket.unread = none ∧ l.socket.ended = true ∧
      completesIn (programStep 3) (fun _ _ => true) l [.arrival (.typed (ascii "exit\n"))] = true))
      begin [.arrival (.segment .fin), .program 0] = true := by
    decide +kernel
  obtain ⟨l, before, hr, ht⟩ := exists_run_of_completesIn hrun
  obtain ⟨hphase, hbusy, hfront, hended, hlater⟩ := of_decide_eq_true ht
  obtain ⟨l', reports, hr', -⟩ := exists_run_of_completesIn hlater
  exact ⟨l, l', reports, ⟨_, before, hr⟩, hr',
    held_back (.inr ⟨hphase, hbusy, hfront, .inl hended⟩) hr'⟩

/-- What is typed is read from the kernel, then taken from `stdio`; a packet is waited for before
it is received. -/
def work (l : Program) : ℕ :=
  3 * l.console.kernel.length + 2 * l.console.stdio.length + 2 * l.socket.unread.length +
    (if l.console.phase = .polling then 1 else 0) + if l.receiving then 0 else 1

/-- A `read` that is made leaves less in the kernel. -/
theorem length_of_offers {held kernel : Bytes} (h : Offers l held kernel) :
    3 * kernel.length + 2 * held.length + 1 ≤ 3 * l.console.kernel.length +
      2 * l.console.stdio.length + if l.console.phase = .polling then 1 else 0 := by
  cases h with
  | held phase => rw [if_pos phase]
  | read phase positive available =>
    rw [List.length_append, List.length_take, List.length_drop]
    omega

private theorem work_lt {n : ℕ} (h : l.turn connectionFd n = .ok (l', r)) : work l' < work l := by
  cases moves_of_turn h with
  | @obeys held kernel reaction offers complete text =>
    have hlen := length_of_offers offers
    have hchunk : 0 < (nextChunk held).length := by
      rw [List.length_pos_iff]
      rintro hnil
      exact text (by rw [hnil]; rfl)
    have hle : (nextChunk held).length ≤ held.length := (takeLine_front _ held).length_le
    simp only [work, List.length_drop]
    split_ifs at hlen ⊢ <;> omega
  | reads offers =>
    have hlen := length_of_offers offers
    simp only [work, reduceCtorEq, if_false]
    omega
  | answers phase free =>
    simp only [work, free, if_true, Bool.false_eq_true, if_false]
    exact Nat.lt_succ_self _
  | @receives p rest reaction phase busy front =>
    have hlen := congrArg List.length (eq_of_frontPacket front)
    have hpos := p.length_bytes_pos
    rw [List.length_append] at hlen
    simp only [work, busy, phase, hlen]
    split_ifs <;> omega

/-- The program takes no turn before something arrives, or at all. Lines that `stdio` holds at a
call of `poll` are not looked at. -/
inductive Settled (connectionFd : ℕ) (l : Program) : Prop
  | finished (phase : l.console.phase = .exited)
  | idle (phase : l.console.phase = .polling) (free : l.receiving = false)
      (kernel : l.console.kernel = []) (unread : l.socket.unread = [])
      (ended : l.socket.ended = false)
  | line (phase : l.console.phase = .reading) (kernel : l.console.kernel = [])
  | packet (phase : l.console.phase = .polling) (busy : l.receiving = true)
      (unfinished : frontPacket l.socket.unread = none) (short : l.socket.unread.length ≤ maxLen)
  | failed {n : ℕ} {fault : Fault} (fails : l.turn connectionFd n = .error (.failed fault))

/-- The branch of standard input returns, waits, or leaves its arrays. -/
theorem parse_error {console : Console} {held : Bytes} {why : Block}
    (h : l.parse connectionFd console held = .error why) : ∃ fault, why = .failed fault := by
  rw [Program.parse] at h
  split at h
  · cases h
  · cases h
  · cases h
    exact ⟨_, rfl⟩
  · rename_i hserve
    rw [InputBuffering.serve] at hserve
    split_ifs at hserve with hc
    rcases bind_eq_error.mp hserve with hparse | ⟨_, -, hok⟩
    · cases hchunk : parseChunk connectionFd (fun _ => 0) (fun _ => 0) (some (nextChunk held)) with
      | ok reaction =>
        rw [hchunk] at hparse
        cases hparse
      | error fault =>
        rw [hchunk] at hparse
        cases hparse
    · cases hok

theorem settled_of_stuck (h : ∀ n, ∃ why, l.turn connectionFd n = .error why) :
    Settled connectionFd l := by
  obtain ⟨why, hwhy⟩ := h 1
  have hturn := hwhy
  rw [Program.turn] at hwhy
  split at hwhy
  · rename_i hphase
    split_ifs at hwhy with hbusy htyped hready
    · rw [Program.receive] at hwhy
      split at hwhy
      · split_ifs at hwhy with hfits
        · rcases bind_eq_error.mp hwhy with hbranch | ⟨_, -, hok⟩
          · cases hresult : socketBranch connectionFd (Memory.store (fun _ => 0) 0 _) with
            | ok reaction =>
              rw [hresult] at hbranch
              cases hbranch
            | error stop =>
              rw [hresult] at hbranch
              cases hbranch
              exact .failed hturn
          · cases hok
        · cases hwhy
          exact .failed hturn
      · rename_i hfront
        split_ifs at hwhy with hshort
        · exact .packet hphase hbusy hfront hshort
        · cases hwhy
          exact .failed hturn
    · obtain ⟨fault, rfl⟩ := parse_error hwhy
      exact .failed hturn
    · have hidle : l.socket.unread = [] ∧ l.socket.ended = false := by
        simpa [ServiceLoop.Loop.readable] using hready
      exact .idle hphase (Bool.eq_false_iff.mpr hbusy) (not_not.mp htyped) hidle.1 hidle.2
  · rename_i hphase
    split_ifs at hwhy with hempty hcount
    · exact .line hphase hempty
    · obtain ⟨fault, rfl⟩ := parse_error hwhy
      exact .failed hturn
    · exact absurd ⟨Nat.le_refl 1, List.length_pos_iff.mpr hempty⟩ hcount
  · rename_i hphase
    exact .finished hphase

/-- From every state the program settles, and on every way there it takes no more turns than what
has arrived allows. -/
theorem program_settles (connectionFd : ℕ) (l : Program) :
    (∀ turns reports l', (∀ t ∈ turns, ∃ n, t = .program n) →
      run (programStep connectionFd) l turns = .ok (l', reports) → turns.length ≤ work l) ∧
    ∃ turns reports l', (∀ t ∈ turns, ∃ n, t = .program n) ∧
      run (programStep connectionFd) l turns = .ok (l', reports) ∧ Settled connectionFd l' := by
  have hstep : ∀ (l : Program) t l' r, True → (∃ n, t = Turn.program n) →
      programStep connectionFd l t = .ok (l', r) → True ∧ work l' < work l := by
    rintro l t l' r - ⟨n, rfl⟩ hs
    exact ⟨trivial, work_lt hs⟩
  constructor
  · intro turns reports l' hown hr
    have heach := (eachStep_const hr).mpr hown
    exact Nat.le_of_add_right_le (length_le_of_decreasing hstep trivial heach hr)
  · obtain ⟨turns, reports, l', heach, hr, -, hend⟩ := exists_run_to_end hstep trivial
    exact ⟨turns, reports, l', (eachStep_const hr).mp heach, hr,
      settled_of_stuck fun n => hend _ ⟨n, rfl⟩⟩

end MessageBroker.SubscriberLoop
