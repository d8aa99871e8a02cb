import MessageBroker.LoopProgress

/-!
# What the loop does with its inputs

Connections, datagrams and the bytes of each connection are three kinds of queues. Each input is
handled once, in the order of its arrival among its kind, or it still waits.
-/
namespace MessageBroker.LoopInputs
open ByteStrings WireFormat ServerStops PollArray ServerHandlers ServerRuns TransitionRuns
open ClientTable DescriptorLifetimes ServicePass ServiceLoop LoopProgress

variable {k : Sockets} {l l' : Loop} {t : Turn} {r : Report} {s : Sys} {fd : ℕ}

def arrivedDatagrams : Turn → List (SockAddrIn × Bytes)
  | .arrival (.datagram src data) => [(src, data)]
  | _ => []

def handledDatagrams : Report → List (SockAddrIn × Bytes)
  | .handled (.datagram src data _) _ => [(src, data)]
  | _ => []

private theorem datagrams_step (hs : loopStep l t = .ok (l', r)) :
    l.datagrams ++ arrivedDatagrams t = handledDatagrams r ++ l'.datagrams := by
  rcases loopStep_cases hs with ⟨a, rfl, harrive, rfl⟩ | ⟨newFd, heap, rfl, hm⟩
  · cases a with
    | typed =>
      cases harrive
      exact List.append_nil _
    | connects peer =>
      cases harrive
      exact List.append_nil _
    | datagram src data =>
      cases harrive
      rfl
    | segment place seg =>
      rcases segment_cases harrive with ⟨j, peer, socket, socket', -, -, -, rfl⟩ |
        ⟨fd, socket', -, -, -, rfl⟩
      · exact List.append_nil _
      · exact List.append_nil _
  · refine (List.append_nil _).trans ?_
    cases hm with
    | takes phase stdin backlog front handled told => exact front
    | exits => rfl
    | accepts => rfl
    | begins => rfl
    | admits => rfl
    | serves => rfl
    | passes => rfl
    | completes => rfl

def arrivedPeers : Turn → List SockAddrIn
  | .arrival (.connects peer) => [peer]
  | _ => []

def handledPeers : Report → List SockAddrIn
  | .handled (.connect _ peer _) _ => [peer]
  | _ => []

/-- The connections whose CONNECT has not been handled. -/
def waitingPeers (l : Loop) : List SockAddrIn :=
  match l.phase with
  | .admitting _ peer => peer :: l.backlog.map Prod.fst
  | _ => l.backlog.map Prod.fst

private theorem peers_step (hs : loopStep l t = .ok (l', r)) :
    waitingPeers l ++ arrivedPeers t = handledPeers r ++ waitingPeers l' := by
  rcases loopStep_cases hs with ⟨a, rfl, harrive, rfl⟩ | ⟨newFd, heap, rfl, hm⟩
  · have hphase := (arrive_globals harrive).1
    rw [waitingPeers, waitingPeers, hphase]
    cases a with
    | typed =>
      cases harrive
      exact List.append_nil _
    | connects peer =>
      cases harrive
      split <;> simp [arrivedPeers, handledPeers]
    | datagram src data =>
      cases harrive
      exact List.append_nil _
    | segment place seg =>
      refine (List.append_nil _).trans ?_
      rcases segment_cases harrive with ⟨j, peer, socket, socket', -, hj, -, rfl⟩ |
        ⟨fd, socket', -, -, -, rfl⟩
      · have hkept : (l.backlog.set j (peer, socket')).map Prod.fst = l.backlog.map Prod.fst := by
          obtain ⟨hlt, hget⟩ := List.getElem?_eq_some_iff.mp hj
          rw [List.map_set]
          refine (congrArg _ ?_).trans (List.set_getElem_self (i := j) (by simpa using hlt))
          rw [List.getElem_map, hget]
        dsimp only
        rw [hkept]
        rfl
      · rfl
  · refine (List.append_nil _).trans ?_
    cases hm with
    | exits phase stdin told => simp only [waitingPeers, phase, handledPeers, List.nil_append]
    | accepts phase stdin front free =>
      simp only [waitingPeers, phase, front, handledPeers, List.nil_append, List.map_cons]
    | takes phase stdin backlog front handled told =>
      simp only [waitingPeers, phase, handledPeers, List.nil_append]
    | begins phase stdin backlog datagrams client ready =>
      simp only [waitingPeers, phase, handledPeers, List.nil_append]
    | admits phase front handled told =>
      simp only [waitingPeers, phase, handledPeers, List.singleton_append]
    | serves phase lt flagged entry front handled told =>
      simp only [waitingPeers, phase, handledPeers, List.nil_append]
    | passes phase lt unflagged =>
      simp only [waitingPeers, phase, handledPeers, List.nil_append]
    | completes phase ge => simp only [waitingPeers, phase, handledPeers, List.nil_append]

def arrivedBytes (fd : ℕ) : Turn → Bytes
  | .arrival (.segment (.accepted fd') (.data bs)) => if fd' = fd then bs else []
  | _ => []

def receivedOn (fd : ℕ) : Report → List Packet
  | .handled (.connect fd' _ p) _ => if fd' = fd then [p] else []
  | .handled (.packet _ fd' p) _ => if fd' = fd then [p] else []
  | _ => []

/-- A SHUTDOWN_CLOSE on the descriptor was handled; its number can come back from then on. -/
def leavesOn (fd : ℕ) : Report → Bool
  | .handled (.packet _ fd' p) _ => fd' = fd ∧ p.action = shutdownClose
  | _ => false

private theorem mem_of_perform {opened opened' : List ℕ} {effects : List Effect}
    (h : perform opened effects = .ok opened') (hmem : fd ∈ opened)
    (hclose : .close fd ∉ effects) : fd ∈ opened' := by
  induction effects generalizing opened with
  | nil =>
    cases h
    exact hmem
  | cons effect effects ih =>
    rw [List.mem_cons, not_or] at hclose
    cases effect with
    | send fd' frame =>
      rw [perform] at h
      split_ifs at h
      exact ih h hmem hclose.2
    | close fd' =>
      refine ih h (List.mem_filter.mpr ⟨hmem, decide_eq_true ?_⟩) hclose.2
      rintro rfl
      exact hclose.1 rfl
    | shutdown fd' => exact ih h hmem hclose.2
    | print line => exact ih h hmem hclose.2

/-- Nothing else closes a descriptor. -/
theorem leaves_of_close {s' : Sys} {e : Event} {effects : List Effect}
    (ho : Outcome k s e s' effects) (hclose : .close fd ∈ effects) :
    leavesOn fd (.handled e effects) = true := by
  cases ho with
  | refused => simp at hclose
  | admitted => simp at hclose
  | request => simp at hclose
  | @shutdown _ p before behind c r server line live found action =>
    have hfd : fd = c.fd := by simpa using hclose
    simp [leavesOn, hfd, action]
  | datagram => simp at hclose

private theorem leavesOn_of_close (h : Follows k l s) {e : Event} {effects : List Effect}
    (hs : loopStep l t = .ok (l', .handled e effects)) (hclose : .close fd ∈ effects) :
    leavesOn fd (.handled e effects) = true := by
  cases follows_step h hs with
  | moves hstep _ => exact leaves_of_close (outcome_of_step h.inv hstep) hclose

private theorem mem_opened_of_has (hhas : l.Has fd)
    (hphase : ∀ peer, l.phase ≠ .admitting fd peer) :
    fd ∈ l.opened := by
  rcases hhas with hopened | ⟨peer, he⟩
  · exact hopened
  · exact absurd he (hphase peer)

/-- A descriptor stays the server's until its client leaves. -/
theorem has_step (h : Follows k l s) (hhas : l.Has fd) (hr : leavesOn fd r ≠ true)
    (hs : loopStep l t = .ok (l', r)) : l'.Has fd := by
  rcases loopStep_cases hs with ⟨a, -, harrive, -⟩ | ⟨newFd, heap, -, hm⟩
  · obtain ⟨hphase, -, hopened⟩ := arrive_globals harrive
    rw [Loop.Has, hphase, hopened]
    exact hhas
  · have hopened (hphase : ∀ peer, l.phase ≠ .admitting fd peer) : fd ∈ l.opened :=
      mem_opened_of_has hhas hphase
    cases hm with
    | exits phase stdin told => exact .inl (hopened (by simp [phase]))
    | accepts phase stdin front free => exact .inl (hopened (by simp [phase]))
    | takes phase stdin backlog front handled told =>
      have hclose := fun hmem => hr (leavesOn_of_close h hs hmem)
      exact .inl (mem_of_perform told (hopened (by simp [phase])) hclose)
    | begins phase stdin backlog datagrams client ready => exact .inl (hopened (by simp [phase]))
    | @admits new peer p rest server retId effects opened phase front handled told =>
      have hclose := fun hmem => hr (leavesOn_of_close h hs hmem)
      refine .inl (mem_of_perform told ?_ hclose)
      by_cases hnew : fd = new
      · exact hnew ▸ List.mem_cons_self
      · refine List.mem_cons_of_mem _ (hopened ?_)
        intro peer' he
        rw [phase] at he
        cases he
        exact hnew rfl
    | serves phase lt flagged entry front handled told =>
      have hclose := fun hmem => hr (leavesOn_of_close h hs hmem)
      exact .inl (mem_of_perform told (hopened (by simp [phase])) hclose)
    | passes phase lt unflagged => exact .inl (hopened (by simp [phase]))
    | completes phase ge => exact .inl (hopened (by simp [phase]))

/-- What a handler is given is the front of the stream. -/
theorem unread_leave {n : ℕ} {p : Packet} {rest : Bytes}
    (front : frontPacket (l.sockets n).unread = some (p, rest)) :
    (l.sockets fd).unread =
      (if n = fd then [p] else []).flatMap Packet.bytes ++ (l.leave n rest fd).unread := by
  by_cases hn : n = fd
  · subst hn
    rw [if_pos rfl, List.flatMap_singleton, Loop.leave, Function.update_self]
    exact eq_of_frontPacket front
  · rw [if_neg hn, Loop.leave, Function.update_of_ne (Ne.symm hn)]
    rfl

private theorem streams_step (hhas : l.Has fd) (hs : loopStep l t = .ok (l', r)) :
    (l.sockets fd).unread ++ arrivedBytes fd t =
      (receivedOn fd r).flatMap Packet.bytes ++ (l'.sockets fd).unread := by
  rcases loopStep_cases hs with ⟨a, rfl, harrive, rfl⟩ | ⟨newFd, heap, rfl, hm⟩
  · cases a with
    | typed =>
      cases harrive
      exact List.append_nil _
    | connects peer =>
      cases harrive
      exact List.append_nil _
    | datagram src data =>
      cases harrive
      exact List.append_nil _
    | segment place seg =>
      rcases segment_cases harrive with ⟨j, peer, socket, socket', rfl, -, -, rfl⟩ |
        ⟨n, socket', rfl, -, hpush, rfl⟩
      · exact List.append_nil _
      · by_cases hn : n = fd
        · subst hn
          dsimp only
          rw [Function.update_self]
          cases seg with
          | data bs =>
            rw [Socket.push] at hpush
            split_ifs at hpush
            rw [← Option.some.inj hpush, arrivedBytes, if_pos rfl]
            rfl
          | fin =>
            rw [Socket.push] at hpush
            split_ifs at hpush
            rw [← Option.some.inj hpush]
            exact List.append_nil _
        · dsimp only
          rw [Function.update_of_ne (Ne.symm hn)]
          cases seg with
          | data bs =>
            rw [arrivedBytes, if_neg hn]
            exact List.append_nil _
          | fin => exact List.append_nil _
  · refine (List.append_nil _).trans ?_
    cases hm with
    | @accepts new peer socket backlog phase stdin front free =>
      have hne : fd ≠ new := by
        rintro rfl
        exact free (mem_opened_of_has hhas (by simp [phase]))
      dsimp only
      rw [Function.update_of_ne hne]
      rfl
    | admits phase front handled told => exact unread_leave front
    | serves phase lt flagged entry front handled told => exact unread_leave front
    | exits => rfl
    | takes => rfl
    | begins => rfl
    | passes => rfl
    | completes => rfl

/-- In every run the connections and the datagrams are handled once each in the order of their
arrival, or they still wait. What was received on a descriptor is the front of what has arrived on
it, up to the packet with which its client leaves. -/
theorem inputs_conserved {turns : List Turn} {reports : List Report}
    (hreach : Reachable loopStep (begin k) l) (hr : run loopStep l turns = .ok (l', reports)) :
    waitingPeers l ++ turns.flatMap arrivedPeers =
      reports.flatMap handledPeers ++ waitingPeers l' ∧
    l.datagrams ++ turns.flatMap arrivedDatagrams =
      reports.flatMap handledDatagrams ++ l'.datagrams ∧
    ∀ fd, l.Has fd → (∀ r ∈ reports.dropLast, leavesOn fd r ≠ true) →
      (l.sockets fd).unread ++ turns.flatMap (arrivedBytes fd) =
        (reports.flatMap (receivedOn fd)).flatMap Packet.bytes ++ (l'.sockets fd).unread := by
  obtain ⟨s, h⟩ := exists_follows hreach
  refine ⟨?_, ?_, ?_⟩
  · exact conserved (I := fun _ => True) (Q := fun _ => True)
      (fun _ _ _ _ _ hs => ⟨fun _ => trivial, peers_step hs⟩) trivial (fun _ _ => trivial) hr
  · exact conserved (I := fun _ => True) (Q := fun _ => True)
      (fun _ _ _ _ _ hs => ⟨fun _ => trivial, datagrams_step hs⟩) trivial (fun _ _ => trivial) hr
  · intro fd hhas hstays
    have hstream := conserved (I := fun l => (∃ s, Follows k l s) ∧ l.Has fd)
      (fun l t l' r hI hs => by
        obtain ⟨⟨s, h⟩, hhas⟩ := hI
        exact ⟨fun hstay => ⟨exists_follows_step h hs, has_step h hhas hstay hs⟩,
          streams_step hhas hs⟩)
      ⟨⟨s, h⟩, hhas⟩ hstays hr
    rw [hstream, List.flatMap_assoc]

/-- `A` sends a request in two pieces around the first pass, and leaves. -/
theorem inputs_conserved_pieces : ∃ l l' reports, Reachable loopStep (begin sampleSockets) l ∧
    run loopStep l [sends 5 (letterPacket subscribeAction 'p'), attend,
      .arrival (.segment (.accepted 5) (.data (shutdownPacket.bytes.take 2))), attend, attend,
      .arrival (.segment (.accepted 5) (.data (shutdownPacket.bytes.drop 2))), attend, attend] =
        .ok (l', reports) ∧ clientFds l'.server = [] ∧
    (l.sockets 5).unread ++ [sends 5 (letterPacket subscribeAction 'p'), attend,
      .arrival (.segment (.accepted 5) (.data (shutdownPacket.bytes.take 2))), attend, attend,
      .arrival (.segment (.accepted 5) (.data (shutdownPacket.bytes.drop 2))), attend,
      attend].flatMap (arrivedBytes 5) =
        (reports.flatMap (receivedOn 5)).flatMap Packet.bytes ++ (l'.sockets 5).unread := by
  have hrun : completesIn loopStep (fun l _ => 5 ∈ l.opened ∧
      completesIn loopStep (fun l' reports => clientFds l'.server = [] ∧
        ∀ r ∈ reports.dropLast, leavesOn 5 r ≠ true) l
        [sends 5 (letterPacket subscribeAction 'p'), attend,
          .arrival (.segment (.accepted 5) (.data (shutdownPacket.bytes.take 2))), attend, attend,
          .arrival (.segment (.accepted 5) (.data (shutdownPacket.bytes.drop 2))), attend,
          attend] = true) (begin sampleSockets) (comes 5 'A') = true := by
    decide +kernel
  obtain ⟨l, before, hr, ht⟩ := exists_run_of_completesIn hrun
  obtain ⟨hopened, hlater⟩ := of_decide_eq_true ht
  obtain ⟨l', reports, hr', ht'⟩ := exists_run_of_completesIn hlater
  obtain ⟨hgone, hstays⟩ := of_decide_eq_true ht'
  have hreach : Reachable loopStep (begin sampleSockets) l := ⟨_, before, hr⟩
  refine ⟨l, l', reports, hreach, hr', hgone, ?_⟩
  exact (inputs_conserved hreach hr').2.2 5 (.inl hopened) hstays

end MessageBroker.LoopInputs
