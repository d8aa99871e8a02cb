import MessageBroker.ClientTable

/-!
# The online flag

The flag is set in the record of an ID and cleared in the first record with a descriptor.
A record keeps its descriptor when its client leaves, so these need not be the same.
-/
namespace MessageBroker.OnlineFlags
open ByteStrings WireFormat ServerStops PollArray SubscriberRecords
open ServerHandlers HandlerOutcomes ServerRuns TransitionRuns ClientTable

variable {k : Sockets} {s s' : Sys}

/-- The flag of a record says whether the last connection of its ID is in the table. -/
def Flags (s : Sys) : Prop :=
  ∀ r ∈ s.server.subs, r.online = true ↔ ∃ c, lastAdmission s r.id.val = some c ∧ c ∈ inTable s

/-- The flags tell the truth, and an ID without a connection in the table is accepted. -/
structure FlagsTruthful (s : Sys) : Prop where
  flags : Flags s
  accepted : ∀ fd peer p, fd ∉ s.opened → p.Buffered → p.text.length < maxId →
    (∀ c ∈ inTable s, c.id ≠ p.text) →
    ∃ t line, step s (.connect fd peer p) = .ok (t, [.print line]) ∧
      ⟨s.admitted.length, fd, p.text⟩ ∈ inTable t

/-- A SHUTDOWN_CLOSE finds no older record with its descriptor in front of the record of its
sender. -/
def ShutdownResolved (s : Sys) : Event → Prop
  | .packet _ fd p => p.action = shutdownClose →
      ∀ c ∈ inTable s, c.fd = fd → Unshadowed s.server.subs c.id fd
  | .connect _ _ _ => True
  | .datagram _ _ _ => True

instance (s : Sys) : (e : Event) → Decidable (ShutdownResolved s e)
  | .packet _ _ _ => inferInstanceAs (Decidable (_ → _))
  | .connect _ _ _ => isTrue trivial
  | .datagram _ _ _ => isTrue trivial

/-- An admission leaves a free place in the table, and a SHUTDOWN_CLOSE is resolved to its
sender. -/
def KeepsFlags (s : Sys) : Event → Prop
  | .connect _ _ p => (∃ r ∈ s.server.subs, r.id.val = p.text ∧ r.online = true) ∨
      s.server.svFds.count + 1 < backlogMax
  | .packet first fd p => ShutdownResolved s (.packet first fd p)
  | .datagram _ _ _ => True

instance (s : Sys) : (e : Event) → Decidable (KeepsFlags s e)
  | .connect _ _ _ => inferInstanceAs (Decidable (_ ∨ _))
  | .packet first fd p => inferInstanceAs (Decidable (ShutdownResolved s (.packet first fd p)))
  | .datagram _ _ _ => isTrue trivial

/-- Some ID of one byte has no live connection: there are more of them than places. -/
theorem exists_free_byte (h : SysInvariant k s) :
    ∃ b : UInt8, b ≠ 0 ∧ [b] ∉ s.live.map Connection.id := by
  by_contra hall
  let ids : List Bytes := (List.range 62).map (fun n => [UInt8.ofNat (n + 1)])
  have hids : ids.Nodup := by decide +kernel
  have hbytes : ∀ n ∈ List.range 62, UInt8.ofNat (n + 1) ≠ 0 := by decide
  have hlive : ids ⊆ s.live.map Connection.id := by
    intro x hx
    obtain ⟨n, hn, rfl⟩ := List.mem_map.mp hx
    by_contra hnew
    exact hall ⟨_, hbytes n hn, hnew⟩
  have hle := (hids.subperm hlive).length_le
  have hroom := h.table.room
  rw [count_eq h, backlogMax] at hroom
  simp only [ids, List.length_map, List.length_range] at hle
  omega

/-- While the flags are right, the next ID is accepted exactly if the table has room. -/
theorem flagsTruthful_iff (h : SysInvariant k s) :
    FlagsTruthful s ↔ Flags s ∧ s.server.svFds.count < backlogMax := by
  constructor
  · intro ht
    refine ⟨ht.flags, ?_⟩
    obtain ⟨b, hb, hnew⟩ := exists_free_byte h
    obtain ⟨fd, hfd⟩ := Infinite.exists_notMem_finset s.opened.toFinset
    have hone : [b].length + 1 ≤ maxLen - sizeofTcpHdr := by simp [maxLen, sizeofTcpHdr]
    have htext : (stringPacket connectAction [b] hone).text = [b] :=
      untilNul_append_zero _ _ (by simpa using hb.symm)
    obtain ⟨t, line, hstep, -⟩ := ht.accepted fd ⟨0, by decide, (0, 0, 0, 0)⟩
      (stringPacket connectAction [b] hone) (by simpa using hfd) (stringPacket_buffered _ _ _)
      (by simp [htext, maxId]) (by
        intro c hc he
        exact hnew (htext ▸ he ▸ List.mem_map_of_mem (inTable_eq h ▸ hc)))
    cases outcome_of_step h hstep with
    | admitted line free room subs svFds => exact room
  · rintro ⟨hflags, hroom⟩
    refine ⟨hflags, ?_⟩
    intro fd peer p hfd hp hshort hnew
    rcases stepCases h (.connect fd peer p) with ⟨-, hno⟩ | ⟨-, why, -, hwhy⟩ | ⟨-, t, fx, ht, ho⟩
    · exact absurd hfd hno
    · cases hwhy with
      | connect noDie cannot => exact absurd ⟨hp, hshort, .inl hroom⟩ cannot
    · have ht' := sysInvariant_outcome h ho
      cases ho with
      | @refused _ _ _ r _ line free record online subs svFds =>
        obtain ⟨c, hc, hin⟩ := (hflags _ record.into.mem).mp online
        have hid : c.id = r.sub.id.val := by simpa using List.find?_some hc
        exact absurd (hid.trans record.id) (hnew c hin)
      | admitted line free room subs svFds =>
        exact ⟨_, line, ht, inTable_eq ht' ▸ List.mem_append_right _ List.mem_cons_self⟩

private theorem flags_iff (h : SysInvariant k s) : Flags s ↔ ∀ r ∈ s.server.subs,
    (r.online = true ↔ ∃ c, lastAdmission s r.id.val = some c ∧ c ∈ s.live) := by
  simp only [Flags, inTable_eq h]

private theorem flags_admitted (h : SysInvariant k s) (hflags : Flags s) {c : Connection}
    {server : Server} {opened : List ℕ} (subs : Admitted s.server.subs c.fd c.id server.subs)
    (h' : SysInvariant k ⟨server, opened, c :: s.admitted, s.live ++ [c]⟩) :
    Flags ⟨server, opened, c :: s.admitted, s.live ++ [c]⟩ := by
  rw [flags_iff h']
  rw [flags_iff h] at hflags
  intro d hd
  rcases mem_cases_of_admitted h.ids subs hd with ⟨hid, -, hon, -⟩ | ⟨hd, hid⟩
  · have hlast : lastAdmission ⟨server, opened, c :: s.admitted, s.live ++ [c]⟩ d.id.val = some c :=
      List.find?_cons_of_pos (by simpa using hid.symm)
    exact ⟨fun _ => ⟨c, hlast, by simp⟩, fun _ => hon⟩
  · have hlast : lastAdmission ⟨server, opened, c :: s.admitted, s.live ++ [c]⟩ d.id.val =
        lastAdmission s d.id.val := List.find?_cons_of_neg (by simpa using hid.symm)
    rw [hlast, hflags d hd]
    constructor
    · rintro ⟨e, he, hlive⟩
      exact ⟨e, he, List.mem_append_left _ hlive⟩
    · rintro ⟨e, he, hlive⟩
      refine ⟨e, he, ?_⟩
      rcases List.mem_append.mp hlive with hlive | hlive
      · exact hlive
      · obtain rfl := List.mem_singleton.mp hlive
        have heid : e.id = d.id.val := by simpa using List.find?_some he
        exact absurd heid.symm hid

/-- Requests other than SHUTDOWN_CLOSE do not touch the flags. -/
theorem flags_request (h : SysInvariant k s) (hflags : Flags s) {fd : ℕ} {r : SubRef}
    {action : UInt8} {topic : Bytes} {server : Server}
    (found : getSubscriberByFd s.server.subs fd = some r) (hact : action ≠ shutdownClose)
    (subs : server.subs = r.write (actOn action topic r.sub))
    (h' : SysInvariant k { s with server := server }) : Flags { s with server := server } := by
  have hinto := (getSubscriberByFd_eq_some.mp found).1
  rw [flags_iff h']
  rw [flags_iff h] at hflags
  intro d hd
  have hd' : d ∈ r.write (actOn action topic r.sub) := subs ▸ hd
  rw [hinto.write_eq_map h.ids] at hd'
  obtain ⟨e, he, rfl⟩ := List.mem_map.mp hd'
  by_cases hsame : e.id = r.sub.id
  · rw [if_pos hsame, actOn_online hact, actOn_id]
    exact hflags r.sub hinto.mem
  · rw [if_neg hsame]
    exact hflags e he

/-- A SHUTDOWN_CLOSE keeps the flags right exactly if it is resolved to the sender. -/
theorem flags_shutdown_iff (h : SysInvariant k s) (hflags : Flags s)
    {before behind : List Connection} {c : Connection} {r : SubRef} {server : Server}
    {opened : List ℕ} (live : s.live = before ++ c :: behind)
    (found : getSubscriberByFd s.server.subs c.fd = some r)
    (subs : server.subs = r.write { r.sub with online := false })
    (h' : SysInvariant k ⟨server, opened, s.admitted, before ++ behind⟩) :
    Flags ⟨server, opened, s.admitted, before ++ behind⟩ ↔
      Unshadowed s.server.subs c.id c.fd := by
  have hc : c ∈ s.live := by simp [live]
  have hgone : c ∉ before ++ behind :=
    fun hleft => fd_ne_of_remaining (live ▸ h.liveFds) hleft rfl
  have hstay {d : Connection} (hne : d ≠ c) : d ∈ s.live ↔ d ∈ before ++ behind := by
    simp [live, hne]
  have hinto := (getSubscriberByFd_eq_some.mp found).1
  rw [hinto.write_eq_map h.ids] at subs
  rw [← resolves_iff h hc found, flags_iff h']
  rw [flags_iff h] at hflags
  constructor
  · intro hafter
    by_contra hne
    obtain ⟨d, hd, hid, -, hon⟩ := h.records c hc
    -- the record of the leaving client is not the one written
    have hkept : d ∈ server.subs := by
      rw [subs]
      refine List.mem_map.mpr ⟨d, hd, if_neg ?_⟩
      intro he
      exact hne (he ▸ hid)
    obtain ⟨e, he, hlive⟩ := (hafter d hkept).mp hon
    have hlast : lastAdmission s c.id = some e := hid ▸ he
    rw [lastAdmission, h.lastAdmitted c hc] at hlast
    cases hlast
    exact hgone hlive
  · intro hid d hd
    have hd' : d ∈ server.subs := hd
    rw [subs] at hd'
    obtain ⟨e, he, rfl⟩ := List.mem_map.mp hd'
    by_cases hsame : e.id = r.sub.id
    · rw [if_pos hsame]
      refine ⟨fun hon => absurd hon (by simp), ?_⟩
      rintro ⟨b, hb, hlive⟩
      have hlast : lastAdmission s c.id = some b := hid ▸ hb
      rw [lastAdmission, h.lastAdmitted c hc] at hlast
      cases hlast
      exact absurd hlive hgone
    · rw [if_neg hsame, hflags e he]
      have hother {b : Connection} (hb : lastAdmission s e.id.val = some b) : b ≠ c := by
        intro hbc
        have hbid : b.id = e.id.val := by simpa using List.find?_some hb
        exact hsame (Subtype.ext (hbid.symm.trans (hbc ▸ hid.symm)))
      constructor
      · rintro ⟨b, hb, hlive⟩
        exact ⟨b, hb, (hstay (hother hb)).mp hlive⟩
      · rintro ⟨b, hb, hlive⟩
        exact ⟨b, hb, (hstay (hother hb)).mpr hlive⟩

private theorem flags_same (h : SysInvariant k s) (hflags : Flags s) (h' : SysInvariant k s')
    (subs : s'.server.subs = s.server.subs) (admitted : s'.admitted = s.admitted)
    (live : s'.live = s.live) : Flags s' := by
  rw [flags_iff h']
  rw [flags_iff h] at hflags
  rw [subs, live]
  simp only [lastAdmission, admitted]
  exact hflags

/-- One step keeps the flags right exactly if it resolves a SHUTDOWN_CLOSE to its sender. -/
theorem flags_step_iff (h : SysInvariant k s) (hflags : Flags s) {e : Event}
    {effects : List Effect} (hs : step s e = .ok (s', effects)) :
    Flags s' ↔ ShutdownResolved s e := by
  have ho := outcome_of_step h hs
  have h' := sysInvariant_outcome h ho
  cases ho with
  | refused line free record online subs svFds =>
    exact ⟨fun _ => trivial, fun _ => flags_same h hflags h' subs rfl rfl⟩
  | admitted line free room subs svFds =>
    exact ⟨fun _ => trivial, fun _ => flags_admitted h hflags subs h'⟩
  | request live found action text held subs svFds =>
    exact ⟨fun _ hact => absurd hact action, fun _ => flags_request h hflags found action subs h'⟩
  | @shutdown _ p _ _ c r server line live found action subs svFds =>
    have hc : c ∈ s.live := by simp [live]
    rw [flags_shutdown_iff h hflags live found subs h', ShutdownResolved]
    constructor
    · intro hclear _ d hd hfd
      have hsame : d = c := List.inj_on_of_nodup_map h.liveFds (inTable_eq h ▸ hd) hc hfd
      rw [hsame]
      exact hclear
    · intro hall
      exact hall action c (inTable_eq h ▸ hc) rfl
  | datagram subs svFds built opened =>
    exact ⟨fun _ => trivial, fun _ => flags_same h hflags h' subs rfl rfl⟩

/-- One step keeps the flags truthful exactly under its condition. -/
theorem flagsTruthful_step_iff (h : SysInvariant k s) (ht : FlagsTruthful s) {e : Event}
    {effects : List Effect} (hs : step s e = .ok (s', effects)) :
    FlagsTruthful s' ↔ KeepsFlags s e := by
  have ho := outcome_of_step h hs
  have h' := sysInvariant_outcome h ho
  obtain ⟨hflags, hroom⟩ := (flagsTruthful_iff h).mp ht
  rw [flagsTruthful_iff h', flags_step_iff h hflags hs]
  cases ho with
  | refused line free record online subs svFds =>
    exact ⟨fun _ => .inl ⟨_, record.into.mem, record.id, online⟩, fun _ => ⟨trivial, svFds ▸ hroom⟩⟩
  | admitted line free room subs svFds =>
    rw [KeepsFlags, svFds, SvFds.count, List.length_append, List.length_singleton]
    constructor
    · intro hafter
      exact .inr hafter.2
    · intro hbefore
      refine ⟨trivial, ?_⟩
      rcases hbefore with ⟨d, hd, hid, hon⟩ | hlt
      · obtain ⟨c, hc, hin⟩ := (hflags d hd).mp hon
        have hcid : c.id = d.id.val := by simpa using List.find?_some hc
        exact absurd (List.mem_map_of_mem (inTable_eq h ▸ hin))
          (hcid.trans hid ▸ h.id_notMem_of_admitted subs)
      · exact hlt
  | request live found action text held subs svFds =>
    exact ⟨fun hafter => hafter.1, fun hbefore => ⟨hbefore, svFds ▸ hroom⟩⟩
  | shutdown line live found action subs svFds =>
    refine ⟨fun hafter => hafter.1, fun hbefore => ⟨hbefore, ?_⟩⟩
    rw [count_eq h] at hroom
    rw [count_eq h']
    simp only [live, List.length_append, List.length_cons] at hroom ⊢
    omega
  | datagram subs svFds built opened =>
    exact ⟨fun _ => trivial, fun _ => ⟨trivial, svFds ▸ hroom⟩⟩

private theorem flagsTruthful_start (k : Sockets) : FlagsTruthful (start k) := by
  rw [flagsTruthful_iff (sysInvariant_start k)]
  refine ⟨by simp [Flags, start], ?_⟩
  rw [count_eq (sysInvariant_start k)]
  simp [start, backlogMax]

/-- In a run the flags are truthful throughout exactly if each step meets its condition. -/
theorem flagsTruthful_throughout_iff {events : List Event} {effects : List (List Effect)}
    (hr : run step (start k) events = .ok (s, effects)) :
    Throughout step FlagsTruthful (start k) events ↔
      EachStep step KeepsFlags (start k) events := by
  apply throughout_iff_eachStep _ _ hr (sysInvariant_start k) (flagsTruthful_start k)
  · intro t e t' fx h hs
    exact sysInvariant_step h hs
  · intro t e t' fx h ht hs
    exact flagsTruthful_step_iff h ht hs

/-- `A` is back on a new descriptor while `B` has its old one. -/
theorem flagsTruthful_throughout_rejoined : Throughout step FlagsTruthful (start sampleSockets)
    [joins 5 'A', joins 6 'B', leaves 5, joins 7 'A', leaves 6] := by
  have hrun : completesIn step (fun _ _ => true) (start sampleSockets)
      [joins 5 'A', joins 6 'B', leaves 5, joins 7 'A', leaves 6] = true := by decide +kernel
  obtain ⟨s, os, hr, -⟩ := exists_run_of_completesIn hrun
  apply (flagsTruthful_throughout_iff hr).mpr
  decide +kernel

/-- `B` leaves on the descriptor that `A` left before: it is the flag of `A` that is
cleared, and `B` stays online without a connection. -/
theorem flagsTruthful_fails_on_reuse :
    ∃ s, Reachable step (start sampleSockets) s ∧ ¬ FlagsTruthful s := by
  have hrun : completesIn step (fun s _ => inTable s = [] ∧ s.server.subs.any Subscriber.online)
      (start sampleSockets) [joins 5 'A', leaves 5, joins 5 'B', leaves 5] = true := by
    decide +kernel
  obtain ⟨s, os, hr, ht⟩ := exists_run_of_completesIn hrun
  obtain ⟨hempty, hany⟩ := of_decide_eq_true ht
  refine ⟨s, ⟨_, os, hr⟩, ?_⟩
  intro htruth
  obtain ⟨r, hr, hon⟩ := List.any_eq_true.mp hany
  obtain ⟨c, -, hin⟩ := (htruth.flags r hr).mp hon
  rw [hempty] at hin
  exact List.not_mem_nil hin

end MessageBroker.OnlineFlags
