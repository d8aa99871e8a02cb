import MessageBroker.ClientTable

/-!
# Whose record a request changes

The record that a descriptor leads to is the one of the connection as long as no
connection is admitted on a descriptor that an older record in front still stores.
-/
namespace MessageBroker.RequestConfinement
open ByteStrings WireFormat ServerStops PollArray SubscriberRecords
open ServerHandlers HandlerOutcomes ServerRuns TransitionRuns ClientTable

variable {k : Sockets} {s s' : Sys}

/-- Each descriptor in the table leads to the record of its connection's ID, and a request
changes that record only. -/
structure RequestsConfined (s : Sys) : Prop where
  lookups : ∀ i e, 3 ≤ i → s.server.svFds.entries[i]? = some e → ∃ c r,
    connectionAt s i = some c ∧ getSubscriberByFd s.server.subs e.fd = some r ∧ r.sub.id.val = c.id
  requests : ∀ c ∈ inTable s, ∀ first p t effects,
    step s (.packet first c.fd p) = .ok (t, effects) →
    ∃ topic, (0 ∈ p.payload → topic = p.text) ∧ t.server.subs =
      s.server.subs.map (fun d => if d.id.val = c.id then actOn p.action topic d else d)

/-- The descriptor of an admitted connection is not stored in front of the record of its ID. -/
def KeepsLookups (s : Sys) : Event → Prop
  | .connect fd _ p => (∃ r ∈ s.server.subs, r.id.val = p.text ∧ r.online = true) ∨
      Unshadowed s.server.subs p.text fd
  | .packet _ _ _ => True
  | .datagram _ _ _ => True

instance (s : Sys) : (e : Event) → Decidable (KeepsLookups s e)
  | .connect _ _ _ => inferInstanceAs (Decidable (_ ∨ _))
  | .packet _ _ _ => isTrue trivial
  | .datagram _ _ _ => isTrue trivial

private theorem request_confined (h : SysInvariant k s) {c : Connection} (hc : c ∈ s.live)
    (hclear : Unshadowed s.server.subs c.id c.fd) {first : Bool} {p : Packet}
    {effects : List Effect} (hs : step s (.packet first c.fd p) = .ok (s', effects)) :
    ∃ topic, (0 ∈ p.payload → topic = p.text) ∧ s'.server.subs =
      s.server.subs.map (fun d => if d.id.val = c.id then actOn p.action topic d else d) := by
  have ho := outcome_of_step h hs
  generalize he : Event.packet first c.fd p = e at ho
  cases ho with
  | refused line free record online subs svFds => cases he
  | admitted line free room subs svFds => cases he
  | @request _ q d r topic server live found action text held subs svFds =>
    injection he with _ hfd hp
    subst hp
    have hid := (resolves_iff h hc (hfd ▸ found)).mpr hclear
    have hinto := (getSubscriberByFd_eq_some.mp found).1
    exact ⟨topic, text, subs.trans (hinto.write_eq_map_of_id h.ids hid (actOn p.action topic))⟩
  | @shutdown _ q _ _ d r server line live found action subs svFds =>
    injection he with _ hfd hp
    subst hp
    have hid := (resolves_iff h hc (hfd ▸ found)).mpr hclear
    have hinto := (getSubscriberByFd_eq_some.mp found).1
    rw [← actOn_shutdown p.text, ← action] at subs
    exact ⟨p.text, fun _ => rfl,
      subs.trans (hinto.write_eq_map_of_id h.ids hid (actOn p.action p.text))⟩
  | datagram subs svFds built opened => cases he

private theorem requestsConfined_iff (h : SysInvariant k s) :
    RequestsConfined s ↔ ∀ c ∈ s.live, Unshadowed s.server.subs c.id c.fd := by
  constructor
  · intro hreq c hc
    obtain ⟨i, hi⟩ := List.mem_iff_getElem?.mp hc
    have hat : connectionAt s (3 + i) = some c := (connectionAt_add h i).trans hi
    have hentry : s.server.svFds.entries[3 + i]? = some c.entry := by
      rw [entries_add h, hi]
      rfl
    obtain ⟨d, r, hd, found, hid⟩ := hreq.lookups (3 + i) c.entry (by omega) hentry
    rw [hat] at hd
    cases hd
    exact (resolves_iff h hc found).mp hid
  · intro hclear
    constructor
    · intro i e hi he
      obtain ⟨j, rfl⟩ := Nat.exists_eq_add_of_le hi
      rw [entries_add h] at he
      obtain ⟨c, hj, rfl⟩ := Option.map_eq_some_iff.mp he
      have hc := List.mem_of_getElem? hj
      obtain ⟨before, behind, hlive⟩ := List.append_of_mem hc
      obtain ⟨r, found⟩ := (h.lookups hlive).1
      exact ⟨c, r, (connectionAt_add h j).trans hj, found,
        (resolves_iff h hc found).mpr (hclear c hc)⟩
    · intro c hc first p t effects hs
      rw [inTable_eq h] at hc
      exact request_confined h hc (hclear c hc) hs

/-- Nothing else than the record of the admitted ID changes in front of a record. -/
theorem mem_recordsBefore_of_admitted {subs subs' : List Subscriber} {fd : ℕ} {x y : Bytes}
    (hids : (subs.map Subscriber.id).Nodup) (ha : Admitted subs fd x subs') {d : Subscriber}
    (hd : d ∈ recordsBefore subs' y) : d.fd = fd ∨ d ∈ recordsBefore subs y := by
  rcases ha with ⟨r, hr, -, rfl⟩ | ⟨-, id, -, rfl⟩
  · rw [hr.into.write_eq_map hids, recordsBefore_map] at hd
    · obtain ⟨e, he, rfl⟩ := List.mem_map.mp hd
      by_cases hsame : e.id = r.sub.id
      · rw [if_pos hsame]
        exact .inl rfl
      · rw [if_neg hsame]
        exact .inr he
    · intro e
      split_ifs with hsame
      · exact hsame.symm
      · rfl
  · rw [recordsBefore, List.takeWhile_append] at hd
    split_ifs at hd with hall
    · have hsame : recordsBefore subs y = subs := (List.takeWhile_prefix _).eq_of_length hall
      rcases List.mem_append.mp hd with hd | hd
      · right
        rw [hsame]
        exact hd
      · have hnew := (List.takeWhile_prefix _).subset hd
        exact .inl (List.mem_singleton.mp hnew ▸ rfl)
    · exact .inr hd

private theorem recordsBefore_of_admitted {subs subs' : List Subscriber} {fd : ℕ} {x : Bytes}
    (ha : Admitted subs fd x subs') : recordsBefore subs' x = recordsBefore subs x := by
  rcases ha with ⟨r, hr, -, rfl⟩ | ⟨hnone, id, hid, rfl⟩
  · have hnew : RecordOf (r.write { r.sub with fd := fd, online := true }) x
        ⟨r.before, { r.sub with fd := fd, online := true }, r.behind⟩ := ⟨rfl, hr.id, hr.first⟩
    rw [hr.before_eq, hnew.before_eq]
  · have hnew : RecordOf (subs ++ [⟨fd, id, [], true⟩]) x ⟨subs, ⟨fd, id, [], true⟩, []⟩ :=
      ⟨rfl, hid, hnone⟩
    rw [recordsBefore_of_forall hnone, hnew.before_eq]

/-- One step keeps the requests confined exactly under its condition. -/
theorem requestsConfined_step_iff (h : SysInvariant k s) (hreq : RequestsConfined s) {e : Event}
    {effects : List Effect} (hs : step s e = .ok (s', effects)) :
    RequestsConfined s' ↔ KeepsLookups s e := by
  have ho := outcome_of_step h hs
  have h' := sysInvariant_outcome h ho
  rw [requestsConfined_iff h] at hreq
  rw [requestsConfined_iff h']
  cases ho with
  | refused line free record online subs svFds =>
    exact ⟨fun _ => .inl ⟨_, record.into.mem, record.id, online⟩, fun _ => subs ▸ hreq⟩
  | @admitted fd _ p server line free room subs svFds =>
    rw [KeepsLookups]
    constructor
    · intro hafter
      right
      have hnew := hafter ⟨s.admitted.length, fd, p.text⟩ (by simp)
      rw [Unshadowed, recordsBefore_of_admitted subs] at hnew
      exact hnew
    · intro hbefore c hc
      rcases List.mem_append.mp hc with hc | hc
      · intro d hd hfd
        rcases mem_recordsBefore_of_admitted h.ids subs hd with hd | hd
        · exact free (hd ▸ hfd ▸ h.liveOpened c hc)
        · exact hreq c hc d hd hfd
      · obtain rfl := List.mem_singleton.mp hc
        rw [Unshadowed, recordsBefore_of_admitted subs]
        rcases hbefore with ⟨d, hd, hid, hon⟩ | hclear
        · rcases subs with ⟨r, hr, hoff, -⟩ | ⟨hnone, -⟩
          · rw [eq_of_id h.ids hd hr.into.mem (Subtype.ext (hid.trans hr.id.symm)), hoff] at hon
            cases hon
          · exact absurd hid (hnone d hd)
        · exact hclear
  | @request _ p c r topic server live found action text held subs svFds =>
    have hinto := (getSubscriberByFd_eq_some.mp found).1
    refine ⟨fun _ => trivial, ?_⟩
    intro _ d hd
    rw [subs, hinto.unshadowed_write (actOn_id _ _ _) (actOn_fd _ _ _)]
    exact hreq d hd
  | @shutdown _ p before behind c r server line live found action subs svFds =>
    have hinto := (getSubscriberByFd_eq_some.mp found).1
    refine ⟨fun _ => trivial, ?_⟩
    intro _ d hd
    have hlive : d ∈ s.live := live ▸ remaining_sublist.subset hd
    rw [subs, hinto.unshadowed_write (d := { r.sub with online := false }) rfl rfl]
    exact hreq d hlive
  | datagram subs svFds built opened => exact ⟨fun _ => trivial, fun _ => subs ▸ hreq⟩

/-- In a run the requests are confined throughout exactly if each step meets its condition. -/
theorem requestsConfined_throughout_iff {events : List Event} {effects : List (List Effect)}
    (hr : run step (start k) events = .ok (s, effects)) :
    Throughout step RequestsConfined (start k) events ↔
      EachStep step KeepsLookups (start k) events := by
  have hstart : RequestsConfined (start k) :=
    (requestsConfined_iff (sysInvariant_start k)).mpr (by simp [start])
  apply throughout_iff_eachStep _ _ hr (sysInvariant_start k) hstart
  · intro t e t' fx h hs
    exact sysInvariant_step h hs
  · intro t e t' fx h hreq hs
    exact requestsConfined_step_iff h hreq hs

/-- `A` is back on the descriptor that `B` left, after `B` has come back on a new one. -/
theorem requestsConfined_throughout_swapped :
    Throughout step RequestsConfined (start sampleSockets)
      [joins 5 'A', joins 6 'B', leaves 6, joins 7 'B', leaves 5, joins 6 'A'] := by
  have hrun : completesIn step (fun _ _ => true) (start sampleSockets)
      [joins 5 'A', joins 6 'B', leaves 6, joins 7 'B', leaves 5, joins 6 'A'] = true := by
    decide +kernel
  obtain ⟨s, os, hr, -⟩ := exists_run_of_completesIn hrun
  apply (requestsConfined_throughout_iff hr).mpr
  decide +kernel

/-- The descriptor of `B` leads to the record that `A` left behind. -/
theorem requestsConfined_fails_on_reuse :
    ∃ s, Reachable step (start sampleSockets) s ∧ ¬ RequestsConfined s := by
  have hrun : completesIn step (fun s _ => connectionAt s 3 = some ⟨1, 5, [byte 'B']⟩ ∧
      (s.server.svFds.entries[3]?).map Pollfd.fd = some 5 ∧
      (getSubscriberByFd s.server.subs 5).map (fun r => r.sub.id.val) = some [byte 'A'])
      (start sampleSockets) [joins 5 'A', leaves 5, joins 5 'B'] = true := by decide +kernel
  obtain ⟨s, os, hr, ht⟩ := exists_run_of_completesIn hrun
  obtain ⟨hat, hentry, hfound⟩ := of_decide_eq_true ht
  refine ⟨s, ⟨_, os, hr⟩, ?_⟩
  intro hreq
  obtain ⟨e, he, hfd⟩ := Option.map_eq_some_iff.mp hentry
  obtain ⟨c, r, hc, hr, hid⟩ := hreq.lookups 3 e le_rfl he
  rw [hat] at hc
  cases hc
  rw [hfd] at hr
  rw [hr, Option.map_some, hid] at hfound
  exact absurd hfound (by decide)

end MessageBroker.RequestConfinement
