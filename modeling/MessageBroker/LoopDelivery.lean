import MessageBroker.BrokerRefinement
import MessageBroker.ServiceLoop

/-!
# The loop delivers like the broker

`start_server` with `poll`, fragments and blocking calls against the abstract broker: what it
handles one after the other, the broker is given as well, and it sends what the broker delivers.
-/
namespace MessageBroker.LoopDelivery
open ByteStrings WireFormat ServerStops PollArray SubscriberRecords ServerHandlers HandlerOutcomes
open ServerRuns TransitionRuns ClientTable DescriptorLifetimes ServicePass PublishSubscribe
open BrokerRefinement BrokenPipes ServiceLoop

/-- The index and the flags of a turn of the loop over the clients. -/
def visiting : Phase → Option (ℕ × List ℕ)
  | .serving i revents _ => some (i, revents)
  | .polling => none
  | .admitting _ _ => none
  | .exited => none

def entryFd (l : Loop) (i : ℕ) : ℕ := (l.server.svFds.entries.getD i default).fd

/-- A request with a topic carries it with its terminator, and the first record with its
descriptor is online. -/
def Owned (l : Loop) : Turn → Prop
  | .arrival _ => True
  | .server _ _ => ∀ v ∈ visiting l.phase, v.2.getD v.1 0 &&& pollin ≠ 0 →
      ∀ front ∈ frontPacket (l.sockets (entryFd l v.1)).unread, IsRequest front.1.action →
        Terminated front.1 ∧
          ∀ r ∈ getSubscriberByFd l.server.subs (entryFd l v.1), r.sub.online = true

instance (l : Loop) : (t : Turn) → Decidable (Owned l t)
  | .arrival _ => isTrue trivial
  | .server _ _ => inferInstanceAs (Decidable (∀ v ∈ visiting l.phase, _ →
      ∀ front ∈ frontPacket (l.sockets (entryFd l v.1)).unread, _ → _ ∧
        ∀ r ∈ getSubscriberByFd l.server.subs (entryFd l v.1), r.sub.online = true))

variable {k : Sockets} {l l' : Loop} {r : Report} {s : Sys} {b : ClientBroker}

/-- The only online record with the descriptor of a live connection is that of its ID. -/
theorem unshadowed_of_online (h : Refines k s b) {c : Connection} (hc : c ∈ s.live)
    (hon : ∀ r ∈ getSubscriberByFd s.server.subs c.fd, r.sub.online = true) :
    Unshadowed s.server.subs c.id c.fd := by
  obtain ⟨before, behind, hlive⟩ := List.append_of_mem hc
  obtain ⟨⟨r, hr⟩, -⟩ := h.inv.lookups hlive
  obtain ⟨hinto, hfd, -⟩ := getSubscriberByFd_eq_some.mp hr
  obtain ⟨e, he, hid, hefd⟩ := h.live_of_online hinto.mem (hon r hr)
  obtain rfl := List.inj_on_of_nodup_map h.inv.liveFds he hc (hefd.trans hfd)
  exact (resolves_iff h.inv hc hr).mp hid.symm

/-- The packet of a turn is at the front of its connection. -/
theorem front_of_handled {t : Turn} (hs : loopStep l t = .ok (l', r)) {cleared : Bool} {fd : ℕ}
    {p : Packet} {effects : List Effect} (he : r.event = some (.packet cleared fd p, effects)) :
    ∃ newFd heap i revents rest, t = .server newFd heap ∧ visiting l.phase = some (i, revents) ∧
      revents.getD i 0 &&& pollin ≠ 0 ∧ entryFd l i = fd ∧
      frontPacket (l.sockets fd).unread = some (p, rest) := by
  cases t with
  | arrival a =>
    rw [loopStep] at hs
    split at hs
    · cases hs
      cases he
    · cases hs
  | server newFd heap =>
    cases moves_of_turn hs with
    | exits phase stdin told => cases he
    | accepts phase stdin front free => cases he
    | takes phase stdin backlog front handled told => cases he
    | begins phase stdin backlog datagrams client ready => cases he
    | admits phase front handled told => cases he
    | serves phase lt flagged entry front handled told =>
      cases he
      exact ⟨newFd, heap, _, _, _, rfl, by rw [phase]; rfl, flagged, entry, front⟩
    | passes phase lt unflagged => cases he
    | completes phase ge => cases he

/-- A turn is a step of the broker with what it delivers, or invisible to it. -/
theorem mirrors_step (h : Follows k l s ∧ Refines k s b) {t : Turn} (hc : Owned l t)
    (hs : loopStep l t = .ok (l', r)) :
    Mirrors (fun l b => ∃ s, Follows k l s ∧ Refines k s b) Delivered brokerStep b l' r.event := by
  obtain ⟨hfollows, hrefines⟩ := h
  have hstep := follows_step hfollows hs
  have hfront {cleared : Bool} {fd : ℕ} {p : Packet} {effects : List Effect}
      (he : r.event = some (.packet cleared fd p, effects)) (hreq : IsRequest p.action) :
      Terminated p ∧ ∀ c ∈ s.live, c.fd = fd → Unshadowed s.server.subs c.id fd := by
    obtain ⟨newFd, heap, i, revents, rest, rfl, hvisit, hflag, rfl, hp⟩ := front_of_handled hs he
    obtain ⟨hterm, hon⟩ := hc (i, revents) hvisit hflag (p, rest) hp hreq
    refine ⟨hterm, ?_⟩
    intro c hc hfd
    rw [← hfd, hfollows.server] at hon
    exact hfd ▸ unshadowed_of_online hrefines hc hon
  generalize r.event = seen at hstep hfront
  cases hstep with
  | stays h' => exact .stays ⟨s, h', hrefines⟩
  | moves hs₁ h' =>
    refine .moves ⟨_, h', hrefines.survived hs₁ ?_⟩ (hrefines.delivered hs₁)
    rintro cleared fd p rfl hreq
    exact hfront rfl hreq

/-- In every run of the loop in which each request finds the record of its sender first, what is
sent is what the broker delivers for what was handled, and an exit would tell the clients of the
broker up to the first whose peer has reset. -/
theorem loop_refines_broker {turns : List Turn} {reports : List Report}
    (hc : EachStep loopStep Owned (begin k) turns)
    (hr : run loopStep (begin k) turns = .ok (l, reports)) :
    List.Forall₂ Delivered ((reports.filterMap Report.event).map Prod.snd)
      (follow brokerStep Broker.empty ((reports.filterMap Report.event).map Prod.fst)).2 ∧
    ∀ reset, ServerStops.sends (carriedOut reset l.server.shutdownServer.2) =
      ((follow brokerStep Broker.empty
        ((reports.filterMap Report.event).map Prod.fst)).1.live.takeWhile (·.1 ∉ reset)).map
          (fun c => (c.1, [shutdownClose, 0, 0, 0, 0])) := by
  have hsim : ∀ l b t l' r, (∃ s, Follows k l s ∧ Refines k s b) → Owned l t →
      loopStep l t = .ok (l', r) →
      Mirrors (fun l b => ∃ s, Follows k l s ∧ Refines k s b) Delivered brokerStep b l' r.event := by
    rintro l b t l' r ⟨s, h⟩ hc hs
    exact mirrors_step h hc hs
  obtain ⟨⟨s, hfollows, hrefines⟩, hall⟩ := follow_of_stuttering hsim
    ⟨start k, follows_begin k, refines_start k⟩ hc hr
  refine ⟨hall, fun reset => ?_⟩
  rw [hfollows.server, sends_carriedOut hfollows.inv, hfollows.inv.clientFds_eq,
    ← hrefines.places_eq, List.takeWhile_map, List.map_map]
  rfl

/-- `A` leaves, so that `B` subscribes to `p` in the next pass only, and `p` is published. -/
def published : List Turn :=
  crowded ++ List.replicate 8 attend ++
    [.arrival (.datagram ⟨4001, publisherPort_lt, (127, 0, 0, 1)⟩
      (byte 'p' :: List.replicate 55 0)), attend]

theorem loop_refines_broker_published : ∃ l reports,
    run loopStep (begin sampleSockets) published = .ok (l, reports) ∧
    (((reports.filterMap Report.event).map Prod.snd).map ServerStops.sends).flatten.map Prod.fst =
      [6] ∧
    List.Forall₂ Delivered ((reports.filterMap Report.event).map Prod.snd)
      (follow brokerStep Broker.empty ((reports.filterMap Report.event).map Prod.fst)).2 := by
  have hrun : completesIn loopStep (fun _ reports =>
      (((reports.filterMap Report.event).map Prod.snd).map ServerStops.sends).flatten.map Prod.fst =
        [6]) (begin sampleSockets) published = true := by
    decide +kernel
  obtain ⟨l, reports, hr, ht⟩ := exists_run_of_completesIn hrun
  exact ⟨l, reports, hr, of_decide_eq_true ht, (loop_refines_broker (by decide +kernel) hr).1⟩

end MessageBroker.LoopDelivery
