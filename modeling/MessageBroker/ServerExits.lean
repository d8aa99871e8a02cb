import MessageBroker.ClientTable

/-!
# When a client's request ends the server

Four handlers guard a lookup with an exit. Only one of these guards can fail: that of an
UNSUBSCRIBE for a pattern that is not held.
-/
namespace MessageBroker.ServerExits
open ByteStrings WireFormat ServerStops PollArray SubscriberRecords Notification
open ServerHandlers HandlerOutcomes ServerRuns TransitionRuns ClientTable

/-- What the subscriber program and the senders of the four types emit. -/
def Emitted : Event → Prop
  | .connect _ _ p => ∃ id h, p = stringPacket connectAction id h ∧ 0 ∉ id
  | .packet _ _ p => p = shutdownPacket ∨ ∃ action topic h, p = stringPacket action topic h ∧
      0 ∉ topic ∧ (action = subscribeAction ∨ action = unsubscribeAction)
  | .datagram _ data _ => (copyLen (datagramType data)).isSome

/-- An UNSUBSCRIBE for a pattern which the record that its descriptor leads to does not hold. -/
def NotHeld (s : Sys) : Event → Prop
  | .packet _ fd p => p.action = unsubscribeAction ∧ (∃ c ∈ inTable s, c.fd = fd) ∧
      ∃ r, getSubscriberByFd s.server.subs fd = some r ∧ p.text ∉ r.sub.topics
  | .connect _ _ _ => False
  | .datagram _ _ _ => False

variable {k : Sockets} {s : Sys}

private theorem wellFormed_of_emitted {first : Bool} {fd : ℕ} {p : Packet}
    (h : Emitted (.packet first fd p)) :
    p.Buffered ∧ Terminated p ∧ (p.action = unsubscribeAction → 0 ∈ p.payload) := by
  rcases h with rfl | ⟨action, topic, hlen, rfl, -, -⟩
  · exact ⟨by decide, by unfold Terminated; decide, by decide⟩
  · have hz : 0 ∈ (stringPacket action topic hlen).payload := by simp [stringPacket]
    exact ⟨stringPacket_buffered _ _ _, fun _ => hz, fun _ => hz⟩

/-- The exit of `handle_unsubscribe` is taken exactly for a pattern that is not held, and no
other exit is ever taken. -/
theorem die_iff (h : SysInvariant k s) {e : Event} (he : Emitted e) (msg : String) :
    step s e = .error (.stopped (.die msg)) ↔
      NotHeld s e ∧ msg = "Error: Subscriber is not subbed to this topic!\n" := by
  constructor
  · intro hs
    rcases stepCases h e with ⟨hi, -⟩ | ⟨hposs, why, hw, hwhy⟩ | ⟨-, t, fx, ht, -⟩
    · rw [hi] at hs
      cases hs
    · rw [hw] at hs
      cases hs
      cases hwhy with
      | connect noDie cannot => cases noDie
      | malformed noDie bad => cases noDie
      | @notSubscribed first fd p r topic found action text absent =>
        have htopic := text ((wellFormed_of_emitted he).2.2 action)
        refine ⟨⟨action, ?_, r, found, htopic ▸ absent⟩, rfl⟩
        rw [inTable_eq h]
        exact hposs
      | datagram noDie bad => cases noDie
    · rw [ht] at hs
      cases hs
  · rintro ⟨hheld, hmsg⟩
    subst hmsg
    cases e with
    | connect fd peer p => cases hheld
    | datagram src data heap => cases hheld
    | packet first fd p =>
      obtain ⟨hact, hin, r, hr, habsent⟩ := hheld
      obtain ⟨hbuf, hterm, hz⟩ := wellFormed_of_emitted he
      rw [inTable_eq h] at hin
      rcases stepCases h (.packet first fd p) with ⟨-, hno⟩ | ⟨-, why, hw, hwhy⟩ | ⟨-, t, fx, -, ho⟩
      · exact absurd hin hno
      · cases hwhy with
        | malformed noDie bad => exact absurd ⟨hbuf, hterm⟩ bad
        | notSubscribed found action text absent => exact hw
      · cases ho with
        | request live found action text held subs svFds =>
          rw [hr] at found
          cases found
          exact absurd (text (hz hact) ▸ held hact) habsent
        | shutdown line live found action subs svFds =>
          rw [hact] at action
          exact absurd action (by decide)

/-- A request of a connected client is served unless it is for a pattern that is not held. -/
theorem serves (h : SysInvariant k s) {first : Bool} {fd : ℕ} {p : Packet}
    (he : Emitted (.packet first fd p)) (hin : ∃ c ∈ inTable s, c.fd = fd)
    (hheld : ¬ NotHeld s (.packet first fd p)) :
    ∃ t effects, step s (.packet first fd p) = .ok (t, effects) := by
  obtain ⟨hbuf, hterm, hz⟩ := wellFormed_of_emitted he
  rcases stepCases h (.packet first fd p) with ⟨-, hno⟩ | ⟨-, why, -, hwhy⟩ | ⟨-, t, fx, ht, -⟩
  · rw [inTable_eq h] at hin
    exact absurd hin hno
  · cases hwhy with
    | malformed noDie bad => exact absurd ⟨hbuf, hterm⟩ bad
    | @notSubscribed _ _ _ r topic found action text absent =>
      exact absurd ⟨action, hin, r, found, text (hz action) ▸ absent⟩ hheld
  · exact ⟨t, fx, ht⟩

/-- In every reachable state the exits of the handlers are those for patterns that are not
held, the other requests of connected clients are served, and a refused CONNECT leaves the
records and the table as they were. -/
theorem handlers_exit_only_unheld (h : Reachable step (start k) s) :
    (∀ e, Emitted e → ∀ msg, step s e = .error (.stopped (.die msg)) ↔
      NotHeld s e ∧ msg = "Error: Subscriber is not subbed to this topic!\n") ∧
    (∀ first fd p, Emitted (.packet first fd p) → (∃ c ∈ inTable s, c.fd = fd) →
      ¬ NotHeld s (.packet first fd p) →
      ∃ t effects, step s (.packet first fd p) = .ok (t, effects)) ∧
    (∀ fd peer p, fd ∉ s.opened → Emitted (.connect fd peer p) →
      (∃ r ∈ s.server.subs, r.id.val = p.text ∧ r.online = true) →
      ∃ t line, step s (.connect fd peer p) =
          .ok (t, [.print line, .send fd [shutdownIntruder, 0, 0, 0, 0]]) ∧
        t.server.subs = s.server.subs ∧ t.server.svFds = s.server.svFds) := by
  have hinv := sysInvariant_reachable h
  refine ⟨fun e he msg => die_iff hinv he msg, fun first fd p he hin hheld =>
    serves hinv he hin hheld, ?_⟩
  rintro fd peer p hfd he ⟨d, hd, hid, hon⟩
  obtain ⟨id, hlen, rfl, -⟩ := he
  obtain ⟨r, hr, rfl⟩ := exists_recordOf hinv hd
  exact step_connect_of_online hinv peer hfd (stringPacket_buffered _ _ _) (hid ▸ hr) hon

/-- `A` holds `p` once and takes it back once. -/
theorem handlers_exit_only_unheld_once : ∃ s, Reachable step (start sampleSockets) s ∧
    (∃ t effects, step s (unsubscribes 5 'p') = .ok (t, effects)) := by
  have hrun : completesIn step (fun s _ => (∃ c ∈ inTable s, c.fd = 5) ∧
      (getSubscriberByFd s.server.subs 5).map (fun r => r.sub.topics) = some [[byte 'p']])
      (start sampleSockets) [joins 5 'A', subscribes 5 'p'] = true := by decide +kernel
  obtain ⟨s, os, hr, ht⟩ := exists_run_of_completesIn hrun
  obtain ⟨hin, htopics⟩ := of_decide_eq_true ht
  have hreach : Reachable step (start sampleSockets) s := ⟨_, os, hr⟩
  refine ⟨s, hreach, (handlers_exit_only_unheld hreach).2.1 true 5
    (letterPacket unsubscribeAction 'p') ?_ hin ?_⟩
  · exact .inr ⟨unsubscribeAction, [byte 'p'], _, rfl, by decide, .inr rfl⟩
  · rintro ⟨_, _, r, hfound, habsent⟩
    rw [hfound, Option.map_some] at htopics
    rw [Option.some.inj htopics] at habsent
    exact absurd habsent (by decide)

/-- `A` takes back a pattern it never held. -/
theorem unsubscribe_unheld_dies : ∃ s, Reachable step (start sampleSockets) s ∧
    Emitted (unsubscribes 5 'p') ∧ step s (unsubscribes 5 'p') =
      .error (.stopped (.die "Error: Subscriber is not subbed to this topic!\n")) := by
  have hrun : completesIn step (fun s _ => (∃ c ∈ inTable s, c.fd = 5) ∧
      (getSubscriberByFd s.server.subs 5).map (fun r => r.sub.topics) = some [])
      (start sampleSockets) [joins 5 'A'] = true := by decide +kernel
  obtain ⟨s, os, hr, ht⟩ := exists_run_of_completesIn hrun
  obtain ⟨hin, htopics⟩ := of_decide_eq_true ht
  have hreach : Reachable step (start sampleSockets) s := ⟨_, os, hr⟩
  have hemitted : Emitted (unsubscribes 5 'p') :=
    .inr ⟨unsubscribeAction, [byte 'p'], _, rfl, by decide, .inr rfl⟩
  refine ⟨s, hreach, hemitted, ?_⟩
  obtain ⟨r, hfound, hempty⟩ := Option.map_eq_some_iff.mp htopics
  apply (die_iff (sysInvariant_reachable hreach) hemitted _).mpr
  exact ⟨⟨rfl, hin, r, hfound, by simp [hempty]⟩, rfl⟩

end MessageBroker.ServerExits
