import MessageBroker.RemovalLoop
import MessageBroker.ServerRuns

/-!
# The pass over the client connections

The last branch of `start_server`: one loop over `sv_fds[3..sv_fds_count)` with the flags of one
`poll`, in which a handler may remove the entry that is served. Beside the globals stand the flags
and the bytes that wait on each connection.
-/
namespace MessageBroker.ServicePass
open ByteStrings WireFormat ServerStops PollArray SubscriberRecords ServerHandlers HandlerOutcomes
open ServerRuns TransitionRuns RemovalLoop

/-- The packet at the front of a stream, and what is behind it. -/
def frontPacket (stream : Bytes) : Option (Packet × Bytes) :=
  let len := (declaredLen stream).toNat
  if h : 0 ≤ declaredLen stream ∧ sizeofTcpHdr + len ≤ stream.length ∧
      sizeofTcpHdr + len < 2 ^ 31 then
    some (⟨stream.getD 0 0, (stream.drop sizeofTcpHdr).take len,
      Nat.lt_of_le_of_lt (Nat.add_le_add_left (List.length_take_le _ _) _) h.2.2⟩,
      stream.drop (sizeofTcpHdr + len))
  else none

/-- `calls` are the descriptors `recv_tcp_packet` was called on. -/
structure Pass where
  server : Server
  revents : List ℕ
  unread : ℕ → Bytes
  calls : List ℕ
  effects : List Effect

/-- `recv` waits on a connection without a whole packet. -/
inductive PassHalt
  | blocked (fd : ℕ)
  | stopped (why : Stop)
  | outOfFuel
  deriving DecidableEq

namespace Pass

/-- `handle_shutdown_sub` moves whole entries, so the flags go with the descriptors. -/
def moveRevents (st : Pass) (fd : ℕ) (p : Packet) : List ℕ :=
  if p.action = shutdownClose then
    match st.server.svFds.getPollStrucByFd fd with
    | some idx => RemovalLoop.removeAt idx st.revents
    | none => st.revents
  else st.revents

/-- `parse_tcp_client_message` on the bytes that wait on the connection. -/
def serve (st : Pass) (fd : ℕ) : Except PassHalt Pass :=
  match frontPacket (st.unread fd) with
  | none => .error (.blocked fd)
  | some (p, rest) => do
    let (server, effects) ← (st.server.parseTcpClientMessage fd p).mapError .stopped
    .ok ⟨server, st.moveRevents fd p, Function.update st.unread fd rest, st.calls ++ [fd],
      st.effects ++ effects⟩

/-- The body of the loop. -/
def visit (st : Pass) (i : ℕ) : Except PassHalt Pass :=
  if st.revents.getD i 0 &&& pollin ≠ 0 then st.serve (st.server.svFds.entries.getD i default).fd
  else .ok st

/-- The loop from index `i` on. The bound is read anew in front of each turn. -/
def loop : ℕ → ℕ → Pass → Except PassHalt Pass
  | 0, _, _ => .error .outOfFuel
  | fuel + 1, i, st =>
    if i < st.server.svFds.count then do
      let st ← st.visit i
      loop fuel (i + 1) st
    else .ok st

end Pass

/-- The buffer is cleared in front of `poll`, not between the clients. -/
def beginPass (sv : Server) (revents : List ℕ) (unread : ℕ → Bytes) : Pass :=
  ⟨sv.clearBuffer, revents, unread, [], []⟩

def clientPass (sv : Server) (revents : List ℕ) (unread : ℕ → Bytes) : Except PassHalt Pass :=
  (beginPass sv revents unread).loop (sv.svFds.count + 1) 3

theorem frontPacket_append (p : Packet) (rest : Bytes) :
    frontPacket (p.bytes ++ rest) = some (p, rest) := by
  have hlen := declaredLen_bytes p rest
  have hp := p.fits
  have hbytes := p.length_bytes
  have hcond : 0 ≤ declaredLen (p.bytes ++ rest) ∧
      sizeofTcpHdr + (declaredLen (p.bytes ++ rest)).toNat ≤ (p.bytes ++ rest).length ∧
      sizeofTcpHdr + (declaredLen (p.bytes ++ rest)).toNat < 2 ^ 31 := by
    rw [hlen, Int.toNat_natCast, List.length_append, hbytes]
    exact ⟨Int.natCast_nonneg _, Nat.le_add_right _ _, hp⟩
  rw [frontPacket, dif_pos hcond]
  simp only [hlen, Int.toNat_natCast, Option.some.injEq, Prod.mk.injEq]
  refine ⟨?_, ?_⟩
  · obtain ⟨action, payload, fits⟩ := p
    congr 1
    simp [Packet.bytes, sizeofTcpHdr, le32]
  · rw [← hbytes, List.drop_left]

/-- A header that can be one is its action and its length. -/
theorem take_sizeofTcpHdr {stream : Bytes} (hlen : sizeofTcpHdr ≤ stream.length)
    (hpos : 0 ≤ declaredLen stream) :
    stream.take sizeofTcpHdr = stream.getD 0 0 :: le32 (declaredLen stream).toNat := by
  obtain ⟨a, b0, b1, b2, b3, behind, rfl⟩ :
      ∃ a b0 b1 b2 b3 behind, stream = a :: b0 :: b1 :: b2 :: b3 :: behind := by
    rw [sizeofTcpHdr] at hlen
    match stream, hlen with
    | a :: b0 :: b1 :: b2 :: b3 :: behind, _ => exact ⟨a, b0, b1, b2, b3, behind, rfl⟩
  have hdeclared : declaredLen (a :: b0 :: b1 :: b2 :: b3 :: behind) =
      int32 (readLE32 b0 b1 b2 b3) := rfl
  have hlt : readLE32 b0 b1 b2 b3 < 2 ^ 31 := by
    by_contra hge
    have hbound := readLE32_lt b0 b1 b2 b3
    rw [hdeclared, int32, if_neg hge] at hpos
    omega
  rw [hdeclared, int32_of_lt hlt, Int.toNat_natCast, le32_readLE32]
  rfl

/-- The packet and what is behind it are the stream. -/
theorem eq_of_frontPacket {stream rest : Bytes} {p : Packet}
    (h : frontPacket stream = some (p, rest)) : stream = p.bytes ++ rest := by
  rw [frontPacket] at h
  split_ifs at h with hc
  have hlen := hc.2.1
  have hheader := take_sizeofTcpHdr (Nat.le_of_add_right_le hlen) hc.1
  have hpayload : ((stream.drop sizeofTcpHdr).take (declaredLen stream).toNat).length =
      (declaredLen stream).toNat := by
    rw [List.length_take, List.length_drop]
    omega
  cases h
  rw [Packet.bytes]
  dsimp only
  rw [hpayload, ← hheader, List.append_assoc, ← List.drop_drop,
    List.take_append_drop, List.take_append_drop]

structure Slot where
  entry : Pollfd
  revents : ℕ

def Slot.fd (c : Slot) : ℕ := c.entry.fd

def Slot.ready (c : Slot) : Bool := decide (c.revents &&& pollin ≠ 0)

/-- What `sv_fds` holds below its count. -/
structure Pass.Holds (st : Pass) (slots : List Slot) : Prop where
  entries : st.server.svFds.entries = slots.map Slot.entry
  revents : st.revents = slots.map Slot.revents

/-- A request the server can handle: only a pattern that is held is given up. -/
inductive Request (topics : List Bytes) (p : Packet) : Prop
  | subscribe (action : p.action = subscribeAction)
  | unsubscribe (action : p.action = unsubscribeAction) (terminated : 0 ∈ p.payload)
      (held : p.text ∈ topics)
  | shutdown (action : p.action = shutdownClose)

theorem Request.held {topics : List Bytes} {p : Packet} (h : Request topics p)
    (haction : p.action = unsubscribeAction) : 0 ∈ p.payload ∧ p.text ∈ topics := by
  cases h with
  | subscribe hsub =>
    rw [hsub] at haction
    exact absurd haction (by decide)
  | unsubscribe _ hz hheld => exact ⟨hz, hheld⟩
  | shutdown hsd =>
    rw [hsd] at haction
    exact absurd haction (by decide)

theorem Request.terminated {topics : List Bytes} {p : Packet} (h : Request topics p)
    (haction : p.action ≠ subscribeAction) : Terminated p := by
  intro htopic
  exact (h.held (htopic.resolve_left haction)).1

/-- In a cleared buffer the packet leaves the last byte zero. -/
def KeepsEnd (p : Packet) : Prop := p.bytes.getD (maxLen - 1) 0 = 0

instance (p : Packet) : Decidable (KeepsEnd p) := inferInstanceAs (Decidable (_ = _))

private theorem store_end {m : Memory} {p : Packet} (hm : m (maxLen - 1) = 0) (hp : KeepsEnd p) :
    m.store 0 p.bytes (maxLen - 1) = 0 := by
  rw [Memory.store, if_pos (Nat.zero_le _), Nat.sub_zero, hm]
  exact hp

/-- In front of a last byte that is zero every topic ends inside the buffer. -/
theorem parse_subscribe_ne_error {sv : Server} {fd : ℕ} {p : Packet} {r : SubRef} {e : Stop}
    (hb : p.Buffered) (hr : getSubscriberByFd sv.subs fd = some r)
    (haction : p.action = subscribeAction) (hend : sv.buff (maxLen - 1) = 0) (hp : KeepsEnd p) :
    sv.parseTcpClientMessage fd p ≠ .error e := by
  have hlast : maxLen - 1 - sizeofTcpHdr < maxLen - sizeofTcpHdr := by decide
  have hzero : sv.buff.store 0 p.bytes (sizeofTcpHdr + (maxLen - 1 - sizeofTcpHdr)) = 0 :=
    store_end hend hp
  obtain ⟨topic, htopic⟩ := Memory.exists_readCStr hlast hzero
  have hread : (sv.holding p).payloadString = .ok topic := by
    rw [Server.payloadString, holding_buff, htopic]
  rw [parseTcpClientMessage_of_buffered sv fd hb, if_pos haction, Server.handleSubscribe,
    holding_subs, hr]
  simp [hread]

section

variable (first : ℕ → Packet) (behind : ℕ → Bytes)

/-- The connection starts with a request the server can handle. -/
structure Pending (st : Pass) (fd : ℕ) : Prop where
  front : st.unread fd = (first fd).bytes ++ behind fd
  buffered : (first fd).Buffered
  record : ∃ r, getSubscriberByFd st.server.subs fd = some r ∧ Request r.sub.topics (first fd)

/-- The client leaves with its next packet. -/
def leaves (c : Slot) : Bool := decide ((first c.fd).action = shutdownClose)

/-- The topics that are still to be read end inside the buffer: each has its terminator, or no
packet reaches the last byte. -/
def TopicsEnd (m : Memory) (slots : List Slot) : Prop :=
  (∀ d ∈ slots, d.ready = true → Terminated (first d.fd)) ∨
    m (maxLen - 1) = 0 ∧ ∀ d ∈ slots, d.ready = true → KeepsEnd (first d.fd)

variable {first behind} {st : Pass} {done todo : List Slot} {c : Slot}

theorem TopicsEnd.head {m : Memory} (h : TopicsEnd first m (c :: todo)) (hready : c.ready = true) :
    Terminated (first c.fd) ∨ m (maxLen - 1) = 0 ∧ KeepsEnd (first c.fd) :=
  h.imp (fun hterminated => hterminated c List.mem_cons_self hready)
    (And.imp_right fun hkeeps => hkeeps c List.mem_cons_self hready)

theorem TopicsEnd.tail {m : Memory} (h : TopicsEnd first m (c :: todo)) :
    TopicsEnd first m todo := by
  rcases h with hterminated | ⟨hlast, hkeeps⟩
  · exact .inl fun d hd => hterminated d (List.mem_cons_of_mem c hd)
  · exact .inr ⟨hlast, fun d hd => hkeeps d (List.mem_cons_of_mem c hd)⟩

theorem TopicsEnd.store {m : Memory} (h : TopicsEnd first m (c :: todo)) (hready : c.ready = true) :
    TopicsEnd first (m.store 0 (first c.fd).bytes) todo := by
  rcases h with hterminated | ⟨hlast, hkeeps⟩
  · exact .inl fun d hd => hterminated d (List.mem_cons_of_mem c hd)
  · exact .inr ⟨store_end hlast (hkeeps c List.mem_cons_self hready),
      fun d hd => hkeeps d (List.mem_cons_of_mem c hd)⟩

private theorem ne_of_distinct (hdistinct : ((done ++ c :: todo).map Slot.fd).Nodup) :
    (∀ d ∈ done, d.fd ≠ c.fd) ∧ ∀ d ∈ todo, d.fd ≠ c.fd := by
  rw [(List.perm_middle.map Slot.fd).nodup_iff, List.map_cons, List.nodup_cons, List.map_append,
    List.mem_append, not_or] at hdistinct
  constructor
  · intro d hd he
    exact hdistinct.1.1 (he ▸ List.mem_map_of_mem hd)
  · intro d hd he
    exact hdistinct.1.2 (he ▸ List.mem_map_of_mem hd)

/-- A request of one connection leaves the requests of the others as they were. -/
theorem Pending.of_write {st' : Pass} {fd other : ℕ} {r : SubRef} {x : Subscriber}
    (h : Pending first behind st other) (hne : other ≠ fd) (hr : r.Into st.server.subs)
    (hrfd : r.sub.fd = fd) (hx : x.fd = r.sub.fd) (hsubs : st'.server.subs = r.write x)
    (hunread : st'.unread other = st.unread other) : Pending first behind st' other := by
  obtain ⟨q, hq, hrequest⟩ := h.record
  have hother : r.sub.fd ≠ other := by
    rw [hrfd]
    exact hne.symm
  have hsame := hr.map_sub_write hx hother
  rw [hq, ← hsubs] at hsame
  obtain ⟨q', hq', hsub⟩ := Option.map_eq_some_iff.mp hsame
  exact ⟨hunread.trans h.front, h.buffered, q', hq', hsub ▸ hrequest⟩

/-- A request that waits does not end the server. -/
theorem Pending.handled {fd idx : ℕ} {r : SubRef} (h : Pending first behind st fd)
    (hr : getSubscriberByFd st.server.subs fd = some r)
    (hidx : st.server.svFds.getPollStrucByFd fd = some idx)
    (hends : Terminated (first fd) ∨ st.server.buff (maxLen - 1) = 0 ∧ KeepsEnd (first fd)) :
    ∃ topic server effects, st.server.parseTcpClientMessage fd (first fd) = .ok (server, effects) ∧
      server.subs = r.write (actOn (first fd).action topic r.sub) ∧
      server.svFds = if (first fd).action = shutdownClose then st.server.svFds.removeAt idx
        else st.server.svFds := by
  obtain ⟨q, hq, hrequest⟩ := h.record
  obtain rfl : q = r := Option.some.inj (hq.symm.trans hr)
  rcases parseTcpClientMessage_cases st.server (first fd) hr hidx with
    ⟨e, he, -, hbad⟩ | ⟨topic, -, haction, htext, habsent⟩ |
      ⟨topic, server, effects, hok, -, -, hsubs, hfds, -, -⟩
  · by_cases hsubscribe : (first fd).action = subscribeAction
    · rcases hends with hterminated | ⟨hlast, hkeeps⟩
      · exact absurd ⟨h.buffered, hterminated⟩ hbad
      · exact absurd he (parse_subscribe_ne_error h.buffered hr hsubscribe hlast hkeeps)
    · exact absurd ⟨h.buffered, hrequest.terminated hsubscribe⟩ hbad
  · obtain ⟨hz, hheld⟩ := hrequest.held haction
    exact absurd (htext hz ▸ hheld) habsent
  · exact ⟨topic, server, effects, hok, hsubs, hfds⟩

/-- What `handle_shutdown_sub` leaves of the array with its flags. -/
theorem holds_removed {st' : Pass} (hholds : st.Holds (done ++ c :: todo))
    (hentries : st'.server.svFds = st.server.svFds.removeAt done.length)
    (hrevents : st'.revents = RemovalLoop.removeAt done.length st.revents) :
    st'.Holds (done ++ todo) := by
  have hsplit : st.server.svFds.entries = done.map Slot.entry ++ c.entry :: todo.map Slot.entry := by
    rw [hholds.entries, List.map_append, List.map_cons]
  have hremoved := PollArray.removeAt_append st.server.svFds hsplit
  have hmoved := RemovalLoop.removeAt_append (done.map Slot.revents) c.revents
    (todo.map Slot.revents)
  rw [List.length_map] at hremoved hmoved
  refine ⟨?_, ?_⟩
  · rw [hentries, hremoved, List.map_append]
  · rw [hrevents, hholds.revents, List.map_append, List.map_cons, hmoved, List.map_append]

/-- One connection is served: its packet is consumed, and its entry goes if the client leaves. -/
theorem serve_ok (hholds : st.Holds (done ++ c :: todo))
    (hdistinct : ((done ++ c :: todo).map Slot.fd).Nodup) (hp : Pending first behind st c.fd)
    (hready : c.ready = true) (hends : TopicsEnd first st.server.buff (c :: todo)) :
    ∃ st', st.serve c.fd = .ok st' ∧
      st'.Holds (if leaves first c then done ++ todo else done ++ c :: todo) ∧
      st'.server.buff = st.server.buff.store 0 (first c.fd).bytes ∧
      st'.calls = st.calls ++ [c.fd] ∧
      st'.unread = Function.update st.unread c.fd (behind c.fd) ∧
      ∀ fd ≠ c.fd, Pending first behind st fd → Pending first behind st' fd := by
  obtain ⟨r, hr, -⟩ := hp.record
  obtain ⟨hinto, hrfd, -⟩ := getSubscriberByFd_eq_some.mp hr
  have hentries : st.server.svFds.entries =
      done.map Slot.entry ++ c.entry :: todo.map Slot.entry := by
    rw [hholds.entries, List.map_append, List.map_cons]
  have hlen : (done.map Slot.entry).length = done.length := List.length_map _
  have hidx : st.server.svFds.getPollStrucByFd c.fd = some done.length := by
    rw [← hlen]
    apply getPollStrucByFd_eq st.server.svFds hentries
    intro d hd
    obtain ⟨b, hb, rfl⟩ := List.mem_map.mp hd
    exact (ne_of_distinct hdistinct).1 b hb
  obtain ⟨topic, server, effects, hok, hsubs, hfds⟩ := hp.handled hr hidx (hends.head hready)
  have hfront := frontPacket_append (first c.fd) (behind c.fd)
  rw [← hp.front] at hfront
  refine ⟨⟨server, st.moveRevents c.fd (first c.fd), Function.update st.unread c.fd (behind c.fd),
    st.calls ++ [c.fd], st.effects ++ effects⟩, ?_, ?_, buff_of_parse hok, rfl, rfl, ?_⟩
  · rw [Pass.serve, hfront]
    simp only [hok, Except.mapError, ok_bind]
  · by_cases hleaves : (first c.fd).action = shutdownClose
    · rw [leaves, if_pos (decide_eq_true hleaves)]
      rw [if_pos hleaves] at hfds
      apply holds_removed hholds hfds
      simp only [Pass.moveRevents, if_pos hleaves, hidx]
    · rw [leaves, if_neg (by simpa using hleaves)]
      rw [if_neg hleaves] at hfds
      refine ⟨hfds ▸ hholds.entries, ?_⟩
      simp only [Pass.moveRevents, if_neg hleaves]
      exact hholds.revents
  · intro fd hne hpending
    exact hpending.of_write hne hinto hrfd (actOn_fd _ _ _) hsubs (Function.update_of_ne hne _ _)

theorem Pass.Holds.count {slots : List Slot} (h : st.Holds slots) :
    st.server.svFds.count = slots.length := by
  rw [SvFds.count, h.entries, List.length_map]

/-- One turn of the loop looks at the entry at its index. -/
theorem loop_succ (hholds : st.Holds (done ++ c :: todo)) (fuel : ℕ) :
    st.loop (fuel + 1) done.length =
      ((if c.ready then st.serve c.fd else .ok st) >>= fun st => st.loop fuel (done.length + 1)) := by
  have hlt : done.length < st.server.svFds.count := by
    rw [hholds.count, List.length_append, List.length_cons]
    omega
  have hentry : st.server.svFds.entries.getD done.length default = c.entry := by
    rw [hholds.entries]
    simp [List.getD_eq_getElem?_getD]
  have hrevents : st.revents.getD done.length 0 = c.revents := by
    rw [hholds.revents]
    simp [List.getD_eq_getElem?_getD]
  have hvisit : st.visit done.length = if c.ready then st.serve c.fd else .ok st := by
    rw [Pass.visit, hentry, hrevents]
    simp only [Slot.ready, decide_eq_true_eq]
    rfl
  rw [Pass.loop, if_pos hlt, hvisit]

variable (behind) in
/-- The loop has called the handler on `seen` and has left `left` behind `done`. -/
structure Worked (done seen left : List Slot) (st st' : Pass) : Prop where
  holds : st'.Holds (done ++ left)
  calls : st'.calls = st.calls ++ seen.map Slot.fd
  unread : ∀ fd, st'.unread fd = if fd ∈ seen.map Slot.fd then behind fd else st.unread fd

theorem Worked.kept {seen left : List Slot} {st' : Pass}
    (h : Worked behind (done ++ [c]) seen left st st') : Worked behind done seen (c :: left) st st' := by
  refine ⟨?_, h.calls, h.unread⟩
  have hholds := h.holds
  rwa [← List.append_cons] at hholds

theorem Worked.served {seen left : List Slot} {st₁ st' : Pass}
    (hcalls : st₁.calls = st.calls ++ [c.fd])
    (hunread : st₁.unread = Function.update st.unread c.fd (behind c.fd))
    (h : Worked behind done seen left st₁ st') : Worked behind done (c :: seen) left st st' := by
  refine ⟨h.holds, ?_, ?_⟩
  · rw [h.calls, hcalls, List.append_assoc]
    rfl
  · intro fd
    rw [h.unread, hunread]
    by_cases hfd : fd = c.fd
    · subst hfd
      simp
    · simp [hfd]

/-- The loop visits what `RemovalLoop.visited` says, and nothing else is read from. -/
theorem loop_ok (skip : Bool) {fuel : ℕ} (hholds : st.Holds (done ++ todo))
    (hdistinct : ((done ++ todo).map Slot.fd).Nodup) (hfuel : todo.length < fuel)
    (hpending : ∀ d ∈ todo, d.ready = true → Pending first behind st d.fd)
    (hends : TopicsEnd first st.server.buff todo) :
    ∃ st', st.loop fuel (done.length + skip.toNat) = .ok st' ∧
      Worked behind done (visited Slot.ready (leaves first) skip todo)
        (remaining Slot.ready (leaves first) skip todo) st st' := by
  induction todo generalizing skip fuel st done with
  | nil =>
    obtain ⟨fuel, rfl⟩ := Nat.exists_eq_add_of_lt hfuel
    have hend : ¬ done.length + skip.toNat < st.server.svFds.count := by
      rw [hholds.count, List.append_nil]
      omega
    refine ⟨st, if_neg hend, ?_⟩
    cases skip with
    | true => exact ⟨hholds, by simp [visited], by simp [visited]⟩
    | false => exact ⟨hholds, by simp [visited], by simp [visited]⟩
  | cons c todo ih =>
    have hnext : done.length + 1 = (done ++ [c]).length + false.toNat := by simp
    have hlater : ∀ d ∈ todo, d.ready = true → Pending first behind st d.fd :=
      fun d hd => hpending d (List.mem_cons_of_mem c hd)
    cases skip with
    | true =>
      rw [List.append_cons] at hholds hdistinct
      obtain ⟨st', hloop, hworked⟩ :=
        ih false hholds hdistinct (Nat.lt_of_succ_lt hfuel) hlater hends.tail
      exact ⟨st', hnext ▸ hloop, hworked.kept⟩
    | false =>
      obtain ⟨fuel, rfl⟩ := Nat.exists_eq_add_one_of_ne_zero (Nat.ne_zero_of_lt hfuel)
      have hroom : todo.length < fuel := Nat.lt_of_succ_lt_succ hfuel
      rw [show done.length + false.toNat = done.length from rfl, loop_succ hholds fuel, visited,
        remaining]
      cases hready : c.ready with
      | false =>
        rw [List.append_cons] at hholds hdistinct
        obtain ⟨st', hloop, hworked⟩ := ih false hholds hdistinct hroom hlater hends.tail
        exact ⟨st', hnext ▸ hloop, hworked.kept⟩
      | true =>
        obtain ⟨st₁, hserve, hholds₁, hbuff₁, hcalls₁, hunread₁, hothers⟩ :=
          serve_ok hholds hdistinct (hpending c List.mem_cons_self hready) hready hends
        have hends₁ : TopicsEnd first st₁.server.buff todo := hbuff₁ ▸ hends.store hready
        have hlater₁ : ∀ d ∈ todo, d.ready = true → Pending first behind st₁ d.fd :=
          fun d hd hd' => hothers _ ((ne_of_distinct hdistinct).2 d hd) (hlater d hd hd')
        rw [if_pos rfl, if_pos rfl, hserve, ok_bind]
        cases hleaves : leaves first c with
        | true =>
          rw [if_pos hleaves] at hholds₁
          have hdistinct₁ := hdistinct.sublist
            (((List.sublist_cons_self c todo).append_left done).map Slot.fd)
          obtain ⟨st', hloop, hworked⟩ := ih true hholds₁ hdistinct₁ hroom hlater₁ hends₁
          exact ⟨st', hloop, hworked.served hcalls₁ hunread₁⟩
        | false =>
          rw [if_neg (by rw [hleaves]; exact Bool.false_ne_true), List.append_cons] at hholds₁
          rw [List.append_cons] at hdistinct
          obtain ⟨st', hloop, hworked⟩ := ih false hholds₁ hdistinct hroom hlater₁ hends₁
          exact ⟨st', hnext ▸ hloop, hworked.kept.served hcalls₁ hunread₁⟩

variable (first behind) in
/-- The array with the flags of `poll`, and a request on every connection that is flagged. -/
structure Serviceable (sv : Server) (basic clients : List Slot) (unread : ℕ → Bytes) : Prop where
  entries : sv.svFds.entries = (basic ++ clients).map Slot.entry
  three : basic.length = 3
  distinct : ((basic ++ clients).map Slot.fd).Nodup
  pending : ∀ c ∈ clients, c.ready = true →
    Pending first behind (beginPass sv ((basic ++ clients).map Slot.revents) unread) c.fd
  ends : TopicsEnd first (fun _ => 0) clients

variable (first) in
/-- What the pass has done to the connections it started with. -/
structure LosesNothing (clients : List Slot) (unread : ℕ → Bytes) (st' : Pass) : Prop where
  once : st'.calls.Nodup
  ready : ∀ fd ∈ st'.calls, ∃ c ∈ clients, c.fd = fd ∧ c.ready = true
  consumed : ∀ fd ∈ st'.calls, unread fd = (first fd).bytes ++ st'.unread fd
  untouched : ∀ fd, fd ∉ st'.calls → st'.unread fd = unread fd
  handled : ∀ c ∈ clients, c.ready = true → (c.fd ∉ st'.calls ↔
    ∃ d, [d, c] <:+: clients ∧ d.fd ∈ st'.calls ∧ leaves first d = true)
  kept : ∀ c ∈ clients, (c.fd ∈ clientFds st'.server ↔
    ¬ (c.fd ∈ st'.calls ∧ leaves first c = true))

/-- The pass reads one packet from each connection that is flagged, except from one whose
predecessor has just been removed; that one keeps its entry and its bytes. -/
theorem clientPass_loses_nothing {sv : Server} {basic clients : List Slot} {unread : ℕ → Bytes}
    (h : Serviceable first behind sv basic clients unread) :
    ∃ st', clientPass sv ((basic ++ clients).map Slot.revents) unread = .ok st' ∧
      LosesNothing first clients unread st' := by
  have hholds : (beginPass sv ((basic ++ clients).map Slot.revents) unread).Holds
      (basic ++ clients) := ⟨h.entries, rfl⟩
  have hfuel : clients.length < sv.svFds.count + 1 := by
    rw [SvFds.count, h.entries, List.length_map, List.length_append]
    omega
  obtain ⟨st', hloop, hworked⟩ := loop_ok false hholds h.distinct hfuel h.pending h.ends
  rw [h.three] at hloop
  have hclients : (clients.map Slot.fd).Nodup :=
    h.distinct.sublist ((List.sublist_append_right basic clients).map Slot.fd)
  have hsublist : (visited Slot.ready (leaves first) false clients).Sublist clients :=
    visited_sublist false clients
  have hcalls : st'.calls = (visited Slot.ready (leaves first) false clients).map Slot.fd :=
    hworked.calls
  have hinj {l : List Slot} (hl : l ⊆ clients) {c : Slot} (hc : c ∈ clients) :
      c.fd ∈ l.map Slot.fd ↔ c ∈ l := by
    refine ⟨?_, List.mem_map_of_mem⟩
    intro hmem
    obtain ⟨d, hd, hfd⟩ := List.mem_map.mp hmem
    exact List.inj_on_of_nodup_map hclients (hl hd) hc hfd ▸ hd
  refine ⟨st', hloop, ?_, ?_, ?_, ?_, ?_, ?_⟩
  · rw [hcalls]
    exact hclients.sublist (hsublist.map Slot.fd)
  · intro fd hfd
    rw [hcalls] at hfd
    obtain ⟨c, hc, rfl⟩ := List.mem_map.mp hfd
    exact ⟨c, hsublist.subset hc, rfl, ready_of_mem_visited hc⟩
  · intro fd hfd
    rw [hcalls] at hfd
    rw [hworked.unread, if_pos hfd]
    obtain ⟨c, hc, rfl⟩ := List.mem_map.mp hfd
    exact (h.pending c (hsublist.subset hc) (ready_of_mem_visited hc)).front
  · intro fd hfd
    rw [hcalls] at hfd
    rw [hworked.unread, if_neg hfd]
    rfl
  · intro c hc hready
    rw [hcalls, hinj hsublist.subset hc, notMem_visited_iff hclients.of_map hc hready]
    constructor
    · rintro ⟨d, hd, hvisited, hleaves⟩
      exact ⟨d, hd, List.mem_map_of_mem hvisited, hleaves⟩
    · rintro ⟨d, hd, hcalled, hleaves⟩
      have hmem : d ∈ clients := hd.subset List.mem_cons_self
      exact ⟨d, hd, (hinj hsublist.subset hmem).mp hcalled, hleaves⟩
  · intro c hc
    have hleft : clientFds st'.server =
        (remaining Slot.ready (leaves first) false clients).map Slot.fd := by
      rw [clientFds, hworked.holds.entries, List.map_append,
        List.drop_left' (by rw [List.length_map, h.three]), List.map_map]
      rfl
    have hmem (d : Slot) : d ∈ remaining Slot.ready (leaves first) false clients ↔ _ :=
      mem_remaining_iff hclients.of_map
    rw [hleft, hinj (fun d hd => ((hmem d).mp hd).1) hc, hmem c, and_iff_right hc, hcalls,
      hinj hsublist.subset hc]

end

/-- Three clients with the descriptors `5`, `6` and `7`; the last one holds the pattern `q`. -/
def sampleServer : Server where
  buff := fun _ => 0
  subs := [⟨5, ⟨ascii "A", by decide⟩, [], true⟩, ⟨6, ⟨ascii "B", by decide⟩, [], true⟩,
    ⟨7, ⟨ascii "C", by decide⟩, [ascii "q"], true⟩]
  svFds := ⟨[0, 3, 4, 5, 6, 7].map fun fd => ⟨fd, pollin⟩, 64, 512⟩

def sampleFirst (fd : ℕ) : Packet :=
  if fd = 5 then shutdownPacket
  else if fd = 6 then stringPacket subscribeAction (ascii "p") (by decide)
  else stringPacket unsubscribeAction (ascii "q") (by decide)

/-- The first client leaves, so the second is passed over and the third is served. -/
theorem clientPass_loses_nothing_removed : ∃ st',
    clientPass sampleServer [0, 0, 0, 1, 1, 1] (fun fd => (sampleFirst fd).bytes ++ []) = .ok st' ∧
      LosesNothing sampleFirst ([5, 6, 7].map fun fd => ⟨⟨fd, pollin⟩, 1⟩)
        (fun fd => (sampleFirst fd).bytes ++ []) st' := by
  have hserviceable : Serviceable sampleFirst (fun _ => []) sampleServer
      ([0, 3, 4].map fun fd => ⟨⟨fd, pollin⟩, 0⟩) ([5, 6, 7].map fun fd => ⟨⟨fd, pollin⟩, 1⟩)
      (fun fd => (sampleFirst fd).bytes ++ []) := by
    refine ⟨rfl, rfl, by decide, ?_, .inr ⟨rfl, by decide⟩⟩
    intro c hc _
    simp only [List.map_cons, List.map_nil, List.mem_cons, List.not_mem_nil, or_false] at hc
    rcases hc with rfl | rfl | rfl
    · exact ⟨rfl, by decide, _, rfl, .shutdown rfl⟩
    · exact ⟨rfl, by decide, _, rfl, .subscribe rfl⟩
    · exact ⟨rfl, by decide, _, rfl, .unsubscribe rfl (by decide) (by decide)⟩
  exact clientPass_loses_nothing hserviceable

section

variable {k : Sockets} {s : Sys}

/-- An entry with the answer of `poll` for its descriptor. -/
def slotOf (flags : ℕ → ℕ) (e : Pollfd) : Slot := ⟨e, flags e.fd⟩

/-- In a reachable state every answer of `poll` can be worked off. -/
theorem serviceable_of_reachable (hr : Reachable step (start k) s) {first : ℕ → Packet}
    {behind unread : ℕ → Bytes} {flags : ℕ → ℕ}
    (hrequest : ∀ c ∈ s.live, flags c.fd &&& pollin ≠ 0 →
      unread c.fd = (first c.fd).bytes ++ behind c.fd ∧ (first c.fd).Buffered ∧
      ∀ r, getSubscriberByFd s.server.subs c.fd = some r → Request r.sub.topics (first c.fd))
    (hends : TopicsEnd first (fun _ => 0) ((s.live.map Connection.entry).map (slotOf flags))) :
    Serviceable first behind s.server ((basicEntries k).map (slotOf flags))
      ((s.live.map Connection.entry).map (slotOf flags)) unread := by
  have h := sysInvariant_reachable hr
  have hslots : ((basicEntries k).map (slotOf flags) ++
      (s.live.map Connection.entry).map (slotOf flags)).map Slot.entry =
        s.server.svFds.entries := by
    rw [← List.map_append, List.map_map, h.entries]
    exact List.map_id _
  refine ⟨hslots.symm, rfl, ?_, ?_, hends⟩
  · have hfds : ((basicEntries k).map (slotOf flags) ++
        (s.live.map Connection.entry).map (slotOf flags)).map Slot.fd =
          [0, k.tcpSock, k.udpSock] ++ s.live.map Connection.fd := by
      simp [basicEntries, slotOf, Slot.fd, Function.comp_def]
    rw [hfds]
    refine List.Nodup.append ?_ h.liveFds ?_
    · exact k.fresh.sublist (((List.Sublist.refl _).cons 2).cons 1 |>.cons_cons 0)
    · intro fd hbasic hlive
      obtain ⟨c, hc, rfl⟩ := List.mem_map.mp hlive
      obtain ⟨h0, htcp, hudp⟩ := h.liveFresh c hc
      simp [h0, htcp, hudp] at hbasic
  · intro c hc hready
    rw [List.map_map] at hc
    obtain ⟨d, hd, rfl⟩ := List.mem_map.mp hc
    obtain ⟨hfront, hbuffered, hrecord⟩ := hrequest d hd (of_decide_eq_true hready)
    obtain ⟨before, behind', hlive⟩ := List.append_of_mem hd
    obtain ⟨⟨r, hr⟩, -⟩ := h.lookups hlive
    exact ⟨hfront, hbuffered, r, hr, hrecord r hr⟩

/-- A packet that finds the buffer as it is. -/
def packetEvent (q : ℕ × Packet) : Event := .packet false q.1 q.2

/-- Serving a connection is a step of the server. -/
theorem serve_is_step (h : SysInvariant k s) {st st' : Pass} {fd : ℕ}
    (hserver : s.server = st.server) (hfd : fd ∈ clientFds s.server)
    (hserve : st.serve fd = .ok st') : ∃ p s' effects,
      step s (packetEvent (fd, p)) = .ok (s', effects) ∧ s'.server = st'.server ∧
        st'.calls = st.calls ++ [fd] := by
  rw [Pass.serve] at hserve
  cases hfront : frontPacket (st.unread fd) with
  | none =>
    rw [hfront] at hserve
    cases hserve
  | some front =>
    obtain ⟨p, rest⟩ := front
    rw [hfront] at hserve
    obtain ⟨c, hc, rfl⟩ := List.mem_map.mp (h.clientFds_eq ▸ hfd)
    obtain ⟨before, behind, hlive⟩ := List.append_of_mem hc
    obtain ⟨⟨r, hr⟩, hidx, -⟩ := h.lookups hlive
    rw [hserver] at hr hidx
    rcases parseTcpClientMessage_cases st.server p hr hidx with
      ⟨e, he, -, -⟩ | ⟨topic, he, -, -, -⟩ | ⟨topic, server, effects, hok, -, -, -, -, hsd, hnsd⟩
    · simp only [he, Except.mapError, error_bind] at hserve
      cases hserve
    · simp only [he, Except.mapError, error_bind] at hserve
      cases hserve
    · simp only [hok, Except.mapError, ok_bind] at hserve
      cases hserve
      have hperform : ∃ opened, perform s.opened effects = .ok opened := by
        by_cases hleaves : p.action = shutdownClose
        · obtain ⟨line, rfl⟩ := hsd hleaves
          exact ⟨_, rfl⟩
        · rw [hnsd hleaves]
          exact ⟨_, rfl⟩
      obtain ⟨opened, hperform⟩ := hperform
      refine ⟨p, ⟨server, opened, s.admitted, s.live.filter (fun c => c.fd ∈ clientFds server)⟩,
        effects, ?_, rfl, rfl⟩
      have hfd : ¬ c.fd ∉ clientFds s.server := not_not.mpr hfd
      rw [packetEvent, step, if_neg hfd]
      simp only [hserver, hok, hperform, Except.mapError, ok_bind, Bool.false_eq_true, if_false]

theorem fd_mem_clientFds {sv : Server} {i : ℕ} (hi : 3 ≤ i) (hlt : i < sv.svFds.count) :
    (sv.svFds.entries.getD i default).fd ∈ clientFds sv := by
  obtain ⟨j, rfl⟩ := Nat.exists_eq_add_of_le hi
  have hdrop : j < (sv.svFds.entries.drop 3).length := by
    rw [SvFds.count] at hlt
    rw [List.length_drop]
    omega
  rw [clientFds, List.getD_eq_getElem?_getD, List.getElem?_eq_getElem hlt, Option.getD_some]
  exact List.mem_map_of_mem (List.mem_iff_getElem.mpr ⟨j, hdrop, List.getElem_drop⟩)

/-- What is left of a pass is a run: one packet for each call, and the buffer is not cleared. -/
theorem loop_is_run (h : SysInvariant k s) {st st' : Pass} {fuel i : ℕ}
    (hserver : s.server = st.server) (hi : 3 ≤ i) (hloop : st.loop fuel i = .ok st') :
    ∃ (served : List (ℕ × Packet)) (s' : Sys) (os : List (List Effect)),
      run step s (served.map packetEvent) = .ok (s', os) ∧ s'.server = st'.server ∧
        st'.calls = st.calls ++ served.map Prod.fst := by
  induction fuel generalizing s st i with
  | zero => cases hloop
  | succ fuel ih =>
    rw [Pass.loop] at hloop
    split_ifs at hloop with hlt
    · obtain ⟨st₁, hvisit, hrest⟩ := bind_eq_ok.mp hloop
      rw [Pass.visit] at hvisit
      split_ifs at hvisit with hready
      · have hfd : (st.server.svFds.entries.getD i default).fd ∈ clientFds s.server := by
          rw [hserver]
          exact fd_mem_clientFds hi hlt
        obtain ⟨p, s₁, effects, hstep, hserver₁, hcalls₁⟩ := serve_is_step h hserver hfd hvisit
        obtain ⟨served, s', os, hrun, hserver', hcalls⟩ :=
          ih (sysInvariant_step h hstep) hserver₁ (Nat.le_succ_of_le hi) hrest
        refine ⟨((st.server.svFds.entries.getD i default).fd, p) :: served, s', effects :: os, ?_,
          hserver', ?_⟩
        · exact run_cons.mpr ⟨s₁, effects, os, hstep, hrun, rfl⟩
        · rw [hcalls, hcalls₁, List.append_assoc]
          rfl
      · cases hvisit
        exact ih h hserver (Nat.le_succ_of_le hi) hrest
    · cases hloop
      exact ⟨[], s, [], rfl, hserver, (List.append_nil _).symm⟩

/-- A pass is a run of the server from the state with a cleared buffer. -/
theorem clientPass_is_run (h : SysInvariant k s) {revents : List ℕ} {unread : ℕ → Bytes}
    {st' : Pass} (hpass : clientPass s.server revents unread = .ok st') :
    ∃ (served : List (ℕ × Packet)) (s' : Sys) (os : List (List Effect)),
      run step { s with server := s.server.clearBuffer } (served.map packetEvent) = .ok (s', os) ∧
        s'.server = st'.server ∧ st'.calls = served.map Prod.fst := by
  have hcleared : SysInvariant k { s with server := s.server.clearBuffer } :=
    ⟨h.table, h.entries, h.liveFds, h.liveOpened, h.liveFresh, h.basicOpened, h.ids, h.liveIds,
      h.records, h.lastAdmitted, h.lastOnFd⟩
  exact loop_is_run hcleared rfl (Nat.le_refl 3) hpass

end

end MessageBroker.ServicePass
