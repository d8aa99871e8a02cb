import MessageBroker.ServerRuns

/-!
# Connections in the table of descriptors

An entry of `sv_fds` stands for the last connection admitted on its descriptor. No two
entries stand for connections of one ID.
-/
namespace MessageBroker.ClientTable
open ByteStrings WireFormat ServerStops PollArray SubscriberRecords
open ServerHandlers HandlerOutcomes ServerRuns TransitionRuns

/-- The connection a descriptor was last accepted for. -/
def connectionOn (s : Sys) (fd : ℕ) : Option Connection := s.admitted.find? (·.fd = fd)

/-- The connection that `sv_fds[i]` stands for. -/
def connectionAt (s : Sys) (i : ℕ) : Option Connection :=
  (s.server.svFds.entries[i]?).bind (fun e => connectionOn s e.fd)

/-- The connections that `sv_fds[3..sv_fds_count)` stands for. -/
def inTable (s : Sys) : List Connection :=
  (s.server.svFds.entries.drop 3).filterMap (fun e => connectionOn s e.fd)

/-- The connection an ID was last admitted on. -/
def lastAdmission (s : Sys) (x : Bytes) : Option Connection := s.admitted.find? (·.id = x)

variable {k : Sockets} {s s' : Sys}

theorem entries_add (h : SysInvariant k s) (i : ℕ) :
    s.server.svFds.entries[3 + i]? = (s.live[i]?).map Connection.entry := by
  rw [h.entries, List.getElem?_append_right (by simp [basicEntries])]
  simp [basicEntries]

theorem connectionAt_add (h : SysInvariant k s) (i : ℕ) :
    connectionAt s (3 + i) = s.live[i]? := by
  rw [connectionAt, entries_add h]
  cases hc : s.live[i]? with
  | none => rfl
  | some c => exact h.lastOnFd c (List.mem_of_getElem? hc)

private theorem connectionAt_of_le (h : SysInvariant k s) {i : ℕ} (hi : 3 ≤ i) :
    connectionAt s i = s.live[i - 3]? := by
  rw [← connectionAt_add h, Nat.add_sub_cancel' hi]

/-- The live connections are read off the table. -/
theorem inTable_eq (h : SysInvariant k s) : inTable s = s.live := by
  have hdrop : s.server.svFds.entries.drop 3 = s.live.map Connection.entry := by
    rw [h.entries]
    rfl
  rw [inTable, hdrop, List.filterMap_map]
  exact (List.filterMap_congr h.lastOnFd).trans List.filterMap_some

theorem count_eq (h : SysInvariant k s) : s.server.svFds.count = 3 + s.live.length := by
  rw [SvFds.count, h.entries, List.length_append, List.length_map]
  rfl

/-- The record of an ID is the one the scan for it stops at. -/
theorem exists_recordOf (h : SysInvariant k s) {d : Subscriber} (hd : d ∈ s.server.subs) :
    ∃ r, RecordOf s.server.subs d.id.val r ∧ r.sub = d := by
  rcases admission_cases d.fd d.id.val s.server.subs with
    ⟨r, hr, -⟩ | ⟨r, hr, -⟩ | ⟨hnone, -⟩
  · exact ⟨r, hr, eq_of_id h.ids hr.into.mem hd (Subtype.ext hr.id)⟩
  · exact ⟨r, hr, eq_of_id h.ids hr.into.mem hd (Subtype.ext hr.id)⟩
  · exact absurd rfl (hnone d hd)

theorem exists_recordOf_live (h : SysInvariant k s) {c : Connection} (hc : c ∈ s.live) :
    ∃ r, RecordOf s.server.subs c.id r ∧ r.sub.online = true := by
  obtain ⟨d, hd, hid, -, hon⟩ := h.records c hc
  obtain ⟨r, hr, rfl⟩ := exists_recordOf h hd
  exact ⟨r, hid ▸ hr, hon⟩

/-- A CONNECT with the ID of an online record is refused. -/
theorem step_connect_of_online (h : SysInvariant k s) {fd : ℕ} (peer : SockAddrIn) {p : Packet}
    {r : SubRef} (hfd : fd ∉ s.opened) (hp : p.Buffered) (hr : RecordOf s.server.subs p.text r)
    (hon : r.sub.online = true) : ∃ t line, step s (.connect fd peer p) =
      .ok (t, [.print line, .send fd [shutdownIntruder, 0, 0, 0, 0]]) ∧
      t.server.subs = s.server.subs ∧ t.server.svFds = s.server.svFds := by
  rcases stepCases h (.connect fd peer p) with ⟨-, hno⟩ | ⟨-, why, -, hwhy⟩ | ⟨-, t, fx, ht, ho⟩
  · exact absurd hfd hno
  · cases hwhy with
    | connect noDie cannot =>
      refine absurd ⟨hp, ?_, .inr ⟨r, hr, hon⟩⟩ cannot
      rw [← hr.id]
      exact r.sub.id.property.1
  · cases ho with
    | refused line free record online subs svFds => exact ⟨_, line, ht, subs, svFds⟩
    | admitted line free room subs svFds => exact absurd hon (not_online_of_admitted subs hr)

/-- The descriptor of a live connection leads to the record of its ID exactly when no
record in front stores the descriptor too. -/
theorem resolves_iff (h : SysInvariant k s) {c : Connection} (hc : c ∈ s.live) {r : SubRef}
    (found : getSubscriberByFd s.server.subs c.fd = some r) :
    r.sub.id.val = c.id ↔ Unshadowed s.server.subs c.id c.fd := by
  obtain ⟨d, hd, hid, hfd, -⟩ := h.records c hc
  have hiff := getSubscriberByFd_id_iff h.ids hd (hfd ▸ found)
  rw [hid, hfd] at hiff
  rw [← hiff, ← hid]
  exact ⟨Subtype.ext, congrArg Subtype.val⟩

/-- At most one entry stands for a connection of an ID, and IDs are not recorded twice. -/
theorem one_connection_per_id (h : Reachable step (start k) s) :
    (∀ i, 3 ≤ i → i < s.server.svFds.count → ∃ c, connectionAt s i = some c) ∧
    (∀ i j c d, 3 ≤ i → 3 ≤ j → i ≠ j → connectionAt s i = some c → connectionAt s j = some d →
      c.id ≠ d.id) ∧
    (s.server.subs.map Subscriber.id).Nodup ∧
    (∀ c ∈ inTable s, ∀ fd peer p, fd ∉ s.opened → p.Buffered → p.text = c.id →
      ∃ t line, step s (.connect fd peer p) =
        .ok (t, [.print line, .send fd [shutdownIntruder, 0, 0, 0, 0]]) ∧
        t.server.subs = s.server.subs ∧ t.server.svFds = s.server.svFds) := by
  have hinv := sysInvariant_reachable h
  refine ⟨?_, ?_, hinv.ids, ?_⟩
  · intro i hi hlt
    rw [count_eq hinv] at hlt
    rw [connectionAt_of_le hinv hi]
    exact ⟨_, List.getElem?_eq_getElem (by omega)⟩
  · intro i j c d hi hj hij hc hd he
    rw [connectionAt_of_le hinv hi] at hc
    rw [connectionAt_of_le hinv hj] at hd
    have hilt : i - 3 < (s.live.map Connection.id).length := by
      rw [List.length_map]
      exact (List.getElem?_eq_some_iff.mp hc).1
    have hsame : i - 3 = j - 3 := by
      apply (List.getElem?_inj hilt hinv.liveIds).mp
      rw [List.getElem?_map, List.getElem?_map, hc, hd, Option.map_some, Option.map_some, he]
    omega
  · intro c hc fd peer p hfd hp hid
    rw [inTable_eq hinv] at hc
    obtain ⟨r, hr, hon⟩ := exists_recordOf_live hinv hc
    exact step_connect_of_online hinv peer hfd hp (hid ▸ hr) hon

def sampleSockets : Sockets := ⟨3, 4, by decide⟩

def letterPacket (action : UInt8) (c : Char) : Packet :=
  stringPacket action [byte c] (by simp [maxLen, sizeofTcpHdr])

theorem samplePort_lt : 4000 < 2 ^ 16 := by decide

theorem publisherPort_lt : 4001 < 2 ^ 16 := by decide

def joins (fd : ℕ) (c : Char) : Event :=
  .connect fd ⟨4000, samplePort_lt, (127, 0, 0, 1)⟩ (letterPacket connectAction c)

def leaves (fd : ℕ) : Event := .packet true fd shutdownPacket

def subscribes (fd : ℕ) (c : Char) : Event := .packet true fd (letterPacket subscribeAction c)

def unsubscribes (fd : ℕ) (c : Char) : Event := .packet true fd (letterPacket unsubscribeAction c)

/-- A datagram of type `INT` with a topic of one letter. -/
def publishes (c : Char) : Event :=
  .datagram ⟨4001, publisherPort_lt, (127, 0, 0, 1)⟩ (byte c :: List.replicate 55 0) (fun _ => 0)

/-- `B` takes over the descriptor of `A`, and `A` is back on another one. -/
theorem one_connection_per_id_reused : ∃ s, Reachable step (start sampleSockets) s ∧
    s.server.svFds.count = 5 ∧ s.server.subs.map Subscriber.fd = [6, 5] ∧
    ∀ i j c d, 3 ≤ i → 3 ≤ j → i ≠ j → connectionAt s i = some c → connectionAt s j = some d →
      c.id ≠ d.id := by
  have hrun : completesIn step
      (fun s _ => s.server.svFds.count = 5 ∧ s.server.subs.map Subscriber.fd = [6, 5])
      (start sampleSockets) [joins 5 'A', leaves 5, joins 5 'B', joins 6 'A'] = true := by
    decide +kernel
  obtain ⟨s, os, hr, ht⟩ := exists_run_of_completesIn hrun
  obtain ⟨hcount, hfds⟩ := of_decide_eq_true ht
  have hreach : Reachable step (start sampleSockets) s := ⟨_, os, hr⟩
  exact ⟨s, hreach, hcount, hfds, (one_connection_per_id hreach).2.1⟩

end MessageBroker.ClientTable
