import MessageBroker.SubscriberLoop

/-!
# From terminal to terminal

The network with a whole `run_subscriber` at each of its links. Lines are typed, the programs
send what the lines ask for, the server handles it, and what it sends is shown.
-/
namespace MessageBroker.WholeSystem
open ListFacts ByteStrings WireFormat ServerStops Notification SubscriberHandlers CommandLine TransitionRuns
open ServerRuns ClientTable PublishSubscribe ClientLinks OrderlyExit ServicePass StreamDelivery
open SubscriberOutput
open SubscriberLoop (Program Report Turn programStep sentPackets)

/-- The program with a number stands at the link with this number. In the stream to a program are
also the bytes that have arrived at its socket. -/
structure World where
  net : Net
  programs : List Program

inductive WorldEvent
  | starts (peer : SockAddrIn) (id : Bytes)
  | program (i : ℕ) (t : Turn)
  | server (e : NetEvent)

inductive WorldReport
  | started (i : ℕ)
  | program (r : Report)
  | server

inductive WorldHalt
  | impossible
  | startup (why : Stop)
  | program (why : SubscriberLoop.Block)
  | server (why : Halt)

def begin (k : Sockets) : World := ⟨ClientLinks.begin k, []⟩

/-- What a turn of its program does to a link. -/
def after (l : Link) : Report → Link
  | .quiet => l
  | .obeyed _ reaction => { l with
      stage := if reaction.exits then .exited else l.stage
      toServer := l.toServer ++ (sends reaction.effects).flatMap Prod.snd }
  | .received p reaction => { l with
      stage := if reaction.exits then .dismissed else l.stage
      toClient := l.toClient.drop p.bytes.length }

/-- The bytes of the stream arrive in their order, and behind them its end, once the server has
closed the connection. -/
def Possible (s : Sys) (l : Link) (q : Program) : Turn → Prop
  | .arrival (.typed _) => True
  | .arrival (.segment (.data bs)) => q.socket.unread ++ bs <+: l.toClient
  | .arrival (.segment .fin) => q.socket.unread = l.toClient ∧ ∃ c ∈ l.connection, c ∉ inTable s
  | .program _ => True

instance (s : Sys) (l : Link) (q : Program) : (t : Turn) → Decidable (Possible s l q t)
  | .arrival (.typed _) => isTrue trivial
  | .arrival (.segment (.data _)) => inferInstanceAs (Decidable (_ <+: _))
  | .arrival (.segment .fin) => inferInstanceAs (Decidable (_ ∧ ∃ c ∈ l.connection, _))
  | .program _ => isTrue trivial

/-- The steps of the network that are the server's. -/
def OfServer : NetEvent → Prop
  | .connect _ _ => False
  | .client _ _ => False
  | .accept _ _ _ => True
  | .serve _ _ _ => True
  | .datagram _ _ _ => True

instance : (e : NetEvent) → Decidable (OfServer e)
  | .connect _ _ => isFalse id
  | .client _ _ => isFalse id
  | .accept _ _ _ => isTrue trivial
  | .serve _ _ _ => isTrue trivial
  | .datagram _ _ _ => isTrue trivial

def worldStep (connectionFd : ℕ) : Transition World WorldEvent WorldReport WorldHalt
  | w, .starts peer id =>
    match connectToServer (fun _ => 0) id with
    | .ok sent =>
      .ok (⟨⟨w.net.sys, w.net.links ++ [⟨peer, .pending, .running, sent, []⟩]⟩,
        w.programs ++ [SubscriberLoop.begin]⟩, .started w.programs.length)
    | .error why => .error (.startup why)
  | w, .program i t =>
    match w.net.links[i]?, w.programs[i]? with
    | some l, some q =>
      if Possible w.net.sys l q t then
        match programStep connectionFd q t with
        | .ok (q, r) =>
          .ok (⟨⟨w.net.sys, w.net.links.set i (after l r)⟩, w.programs.set i q⟩, .program r)
        | .error why => .error (.program why)
      else .error .impossible
    | _, _ => .error .impossible
  | w, .server e =>
    if OfServer e then
      match netStep w.net e with
      | .ok (net, _) => .ok (⟨net, w.programs⟩, .server)
      | .error why => .error (.server why)
    else .error .impossible

/-- The packet of `connect_to_server`. -/
def startPackets (id : Bytes) : List Packet :=
  if h : id.length + 1 ≤ maxLen - sizeofTcpHdr then [stringPacket connectAction id h] else []

def actionsOf : Report → List ClientAction
  | .quiet => []
  | .obeyed _ reaction =>
    if reaction.exits then [.exit, .close] else (sentPackets reaction).map .request
  | .received p _ => [.receive p]

/-- The steps of the network that a step of the whole system amounts to. -/
def netEvents : WorldEvent → WorldReport → List NetEvent
  | .starts peer id, _ => (startPackets id).map (.connect peer)
  | .program i _, .program r => (actionsOf r).map (.client i)
  | .program _ _, _ => []
  | .server e, _ => if OfServer e then [e] else []

/-- A program that has not ended is a running subscriber, and its socket has the front of what is
sent to it. -/
structure Pairs (l : Link) (q : Program) : Prop where
  running : q.console.phase ≠ .exited → l.stage = .running
  arrived : q.socket.unread <+: l.toClient

structure Paired (w : World) : Prop where
  length : w.programs.length = w.net.links.length
  pairs : ∀ (i : ℕ) l q, w.net.links[i]? = some l → w.programs[i]? = some q → Pairs l q

variable {connectionFd i : ℕ} {l l' : Link} {q q' : Program} {r : Report} {t : Turn} {s : Sys}

private theorem startPackets_of_ok {id sent : Bytes}
    (h : connectToServer (fun _ => 0) id = .ok sent) :
    ∃ p, startPackets id = [p] ∧ p.action = connectAction ∧ sent = p.bytes := by
  rw [connectToServer] at h
  by_cases hfits : id.length + 1 ≤ maxLen - sizeofTcpHdr
  · rw [sendString_eq _ _ hfits] at h
    cases h
    exact ⟨_, dif_pos hfits, rfl, rfl⟩
  · rw [sendString_error _ _ hfits] at h
    cases h

/-- A sequence of actions of the subscriber. -/
def act (l : Link) (as : List ClientAction) : Option Link := as.foldlM (fun l a => clientStep a l) l

/-- A turn of the program is a sequence of actions of the subscriber at the link. -/
theorem acts_of_moves (h : Pairs l q) (hm : SubscriberLoop.Moves connectionFd q q' r) :
    act l (actionsOf r) = some (after l r) ∧ Pairs (after l r) q' := by
  cases hm with
  | @obeys held kernel reaction offers complete text obeyed =>
    have hstage : l.stage = .running := by
      apply h.running
      cases offers with
      | held phase => simp [phase]
      | read phase => simp [phase]
    cases SubscriberLoop.replies_of_reply obeyed with
    | leaves exits sent =>
      refine ⟨?_, ?_, ?_⟩
      · simp [act, actionsOf, after, clientStep, exits, sent, hstage, exitBytes_eq]
      · simp [exits]
      · exact h.arrived
    | @requests p exits action sent =>
      refine ⟨?_, ?_, ?_⟩
      · simp [act, actionsOf, after, clientStep, exits, sent, hstage, action,
          SubscriberLoop.sentPackets_of_sends sent]
      · simp [after, exits, hstage]
      · exact h.arrived
    | rejects exits sent =>
      refine ⟨?_, ?_, ?_⟩
      · simp [act, actionsOf, after, exits, sent, sentPackets]
      · simp [after, exits, hstage]
      · exact h.arrived
  | reads offers =>
    refine ⟨rfl, ?_, h.arrived⟩
    intro _
    apply h.running
    cases offers with
    | held phase => simp [phase]
    | read phase => simp [phase]
  | answers phase =>
    exact ⟨rfl, h.running, h.arrived⟩
  | @receives p rest reaction phase busy front fits branch =>
    have hstage : l.stage = .running := h.running (by simp [phase])
    have hunread := eq_of_frontPacket front
    obtain ⟨more, hmore⟩ := h.arrived
    rw [hunread, List.append_assoc] at hmore
    have hfront : p.bytes <+: l.toClient := ⟨_, hmore⟩
    have haction : Memory.store (fun _ => 0) 0 p.bytes 0 = p.action := by
      simp [Memory.store, Packet.bytes]
    have hexits := SubscriberLoop.exits_of_branch branch
    rw [haction] at hexits
    have hdrop : l.toClient.drop p.bytes.length = rest ++ more := by
      rw [← hmore, List.drop_left]
    refine ⟨?_, ?_, ?_⟩
    · simp only [act, actionsOf, after, List.foldlM_cons, List.foldlM_nil, clientStep, hstage,
        hfront, and_self, if_true, hexits]
      rfl
    · simp only [after]
      cases reaction.exits <;> simp [hstage]
    · simp only [after, hdrop]
      exact List.prefix_append _ _

/-- So is what arrives, which is no action at all. -/
theorem acts_of_program (h : Pairs l q) (hpossible : Possible s l q t)
    (hs : programStep connectionFd q t = .ok (q', r)) :
    act l (actionsOf r) = some (after l r) ∧ Pairs (after l r) q' := by
  cases t with
  | program n => exact acts_of_moves h (SubscriberLoop.moves_of_turn hs)
  | arrival a =>
    obtain ⟨ha, rfl⟩ := SubscriberLoop.arrival_cases hs
    refine ⟨rfl, ?_⟩
    cases a with
    | typed bs =>
      rw [SubscriberLoop.arrive_typed ha]
      exact ⟨h.running, h.arrived⟩
    | segment seg =>
      obtain ⟨socket, hpush, rfl⟩ := SubscriberLoop.arrive_segment ha
      refine ⟨h.running, ?_⟩
      cases seg with
      | data bs =>
        rw [ServiceLoop.Socket.push] at hpush
        split_ifs at hpush
        cases hpush
        exact hpossible
      | fin =>
        rw [ServiceLoop.Socket.push] at hpush
        split_ifs at hpush
        cases hpush
        exact h.arrived

private theorem run_actions {n : Net} {as : List ClientAction} (hl : n.links[i]? = some l)
    (h : act l as = some l') : ∃ effects,
      run netStep n (as.map (.client i)) = .ok (⟨n.sys, n.links.set i l'⟩, effects) := by
  induction as generalizing n l with
  | nil =>
    cases h
    obtain ⟨hlt, rfl⟩ := List.getElem?_eq_some_iff.mp hl
    rw [List.set_getElem_self]
    exact ⟨[], rfl⟩
  | cons a as ih =>
    rw [act, List.foldlM_cons] at h
    obtain ⟨l₁, ha, has⟩ := Option.bind_eq_some_iff.mp h
    obtain ⟨hlt, -⟩ := List.getElem?_eq_some_iff.mp hl
    have hs : netStep n (.client i a) = .ok (⟨n.sys, n.links.set i l₁⟩, []) := by
      simp only [netStep, hl, Option.bind_some, ha]
    obtain ⟨effects, hr⟩ := ih (n := ⟨n.sys, n.links.set i l₁⟩) (List.getElem?_set_self hlt) has
    rw [List.set_set] at hr
    exact ⟨_, run_cons.mpr ⟨_, _, _, hs, hr, rfl⟩⟩

/-- Only requests can be resolved to a wrong record. -/
theorem attributed_of_not_served {n : Net} {es : List NetEvent} (h : ∀ e ∈ es, ¬ OfServer e) :
    EachStep netStep Attributed n es := by
  induction es generalizing n with
  | nil => trivial
  | cons e es ih =>
    obtain ⟨he, hes⟩ := List.forall_mem_cons.mp h
    refine ⟨?_, fun n' effects _ => ih hes⟩
    cases e with
    | connect peer p => trivial
    | client j a => trivial
    | accept j fd p => exact absurd trivial he
    | serve j first p => exact absurd trivial he
    | datagram src data heap => exact absurd trivial he

/-- The packet that the server takes off the stream of a link. -/
def handledOn (i : ℕ) : NetEvent → List Packet
  | .accept j _ p => if j = i then [p] else []
  | .serve j _ p => if j = i then [p] else []
  | _ => []

/-- What the server does to a link: it takes a packet off one stream and adds to the other. -/
structure Served (e : NetEvent) (i : ℕ) (l l' : Link) : Prop where
  stage : l'.stage = l.stage
  toClient : l.toClient <+: l'.toClient
  toServer : l.toServer = (handledOn i e).flatMap Packet.bytes ++ l'.toServer

private theorem served_deliver {e : NetEvent} (h : Served e i l l') (s : Sys)
    (effects : List Effect) :
    Served e i l (l'.deliver s effects) :=
  ⟨h.stage, h.toClient.trans (List.prefix_append _ _), h.toServer⟩

/-- The server has the same links before and after its step. -/
structure Serves (e : NetEvent) (n n' : Net) : Prop where
  length : n'.links.length = n.links.length
  served : ∀ (i : ℕ) l', n'.links[i]? = some l' → ∃ l, n.links[i]? = some l ∧ Served e i l l'
  nowhere : ∀ i, n.links[i]? = none → handledOn i e = []

private theorem served_advance {n n' : Net} {j : ℕ} {lj : Link} {e : NetEvent} {ev : Event}
    {server : Sys → List Effect → ServerEnd} {p : Packet} {effects : List Effect}
    (hl : n.links[j]? = some lj) (hp : p.bytes <+: lj.toServer)
    (hhandled : ∀ i, handledOn i e = if j = i then [p] else [])
    (h : advance n j lj ev server p = .ok (n', effects)) : Serves e n n' := by
  obtain ⟨sys, -, rfl⟩ := advance_cases h
  refine ⟨by simp, ?_, ?_⟩
  swap
  · rintro i hnone
    rw [hhandled, if_neg]
    rintro rfl
    rw [hl] at hnone
    cases hnone
  intro i l' hl'
  rw [List.getElem?_map] at hl'
  obtain ⟨l₁, hl₁, rfl⟩ := Option.map_eq_some_iff.mp hl'
  obtain ⟨hlt, -⟩ := List.getElem?_eq_some_iff.mp hl
  by_cases hj : j = i
  · subst hj
    rw [List.getElem?_set_self hlt] at hl₁
    cases hl₁
    obtain ⟨rest, hrest⟩ := hp
    have hserved : Served e j lj (lj.consume p (server sys effects)) := by
      refine ⟨rfl, List.prefix_rfl, ?_⟩
      rw [hhandled, if_pos rfl, Link.consume, ← hrest]
      simp
    exact ⟨lj, hl, served_deliver hserved _ _⟩
  · rw [List.getElem?_set_ne hj] at hl₁
    refine ⟨l₁, hl₁, served_deliver ⟨rfl, List.prefix_rfl, ?_⟩ _ _⟩
    rw [hhandled, if_neg hj]
    rfl

theorem served_of_netStep {n n' : Net} {e : NetEvent} {effects : List Effect} (he : OfServer e)
    (hs : netStep n e = .ok (n', effects)) : Serves e n n' := by
  cases e with
  | connect peer p => exact he.elim
  | client j a => exact he.elim
  | accept j fd p =>
    obtain ⟨lj, hl, -, hp, h⟩ := accept_cases hs
    exact served_advance hl hp (fun _ => rfl) h
  | serve j first p =>
    obtain ⟨lj, c, hl, -, -, hp, h⟩ := serve_cases hs
    exact served_advance hl hp (fun _ => rfl) h
  | datagram src data heap =>
    obtain ⟨sys, -, rfl⟩ := datagram_cases hs
    refine ⟨by simp, ?_, fun _ _ => rfl⟩
    intro i l' hl'
    rw [List.getElem?_map] at hl'
    obtain ⟨l₁, hl₁, rfl⟩ := Option.map_eq_some_iff.mp hl'
    exact ⟨l₁, hl₁, served_deliver ⟨rfl, List.prefix_rfl, rfl⟩ _ _⟩

inductive Steps (connectionFd : ℕ) (w : World) : WorldEvent → World → WorldReport → Prop
  | starts {peer : SockAddrIn} {id : Bytes} {p : Packet} (packets : startPackets id = [p])
      (action : p.action = connectAction) :
      Steps connectionFd w (.starts peer id)
        ⟨⟨w.net.sys, w.net.links ++ [⟨peer, .pending, .running, p.bytes, []⟩]⟩,
          w.programs ++ [SubscriberLoop.begin]⟩ (.started w.programs.length)
  | program {i : ℕ} {t : Turn} {l : Link} {q q' : Program} {r : Report}
      (link : w.net.links[i]? = some l) (own : w.programs[i]? = some q)
      (possible : Possible w.net.sys l q t) (turn : programStep connectionFd q t = .ok (q', r)) :
      Steps connectionFd w (.program i t)
        ⟨⟨w.net.sys, w.net.links.set i (after l r)⟩, w.programs.set i q'⟩ (.program r)
  | server {e : NetEvent} {net : Net} {effects : List Effect} (ofServer : OfServer e)
      (step : netStep w.net e = .ok (net, effects)) :
      Steps connectionFd w (.server e) ⟨net, w.programs⟩ .server

variable {k : Sockets} {w w' : World} {e : WorldEvent} {o : WorldReport}

theorem steps_of_worldStep (h : worldStep connectionFd w e = .ok (w', o)) :
    Steps connectionFd w e w' o := by
  cases e with
  | starts peer id =>
    rw [worldStep] at h
    split at h
    · rename_i sent hsent
      cases h
      obtain ⟨p, hpackets, haction, rfl⟩ := startPackets_of_ok hsent
      exact .starts hpackets haction
    · cases h
  | program i t =>
    rw [worldStep] at h
    split at h
    · rename_i l q hl hq
      split_ifs at h with hpossible
      split at h
      · rename_i q' r hturn
        cases h
        exact .program hl hq hpossible hturn
      · cases h
    · cases h
  | server e =>
    rw [worldStep] at h
    split_ifs at h with hserver
    split at h
    · rename_i net effects hs
      cases h
      exact .server hserver hs
    · cases h

theorem paired_begin (k : Sockets) : Paired (begin k) where
  length := rfl
  pairs := by simp [begin, ClientLinks.begin]

/-- A step of the whole system is a run of the network. -/
theorem expands (hp : Paired w) (h : Steps connectionFd w e w' o) :
    (∃ effects, run netStep w.net (netEvents e o) = .ok (w'.net, effects)) ∧ Paired w' := by
  cases h with
  | @starts peer id p packets action =>
    refine ⟨⟨[[]], ?_⟩, ?_, ?_⟩
    · rw [netEvents, packets]
      refine run_cons.mpr ⟨_, [], [], ?_, rfl, rfl⟩
      rw [netStep, if_pos action]
    · simp [hp.length]
    · intro i l q hl hq
      rw [List.getElem?_append] at hl hq
      rw [hp.length] at hq
      split_ifs at hl hq
      · exact hp.pairs i l q hl hq
      · obtain rfl := List.mem_singleton.mp (List.mem_of_getElem? hl)
        obtain rfl := List.mem_singleton.mp (List.mem_of_getElem? hq)
        exact ⟨fun _ => rfl, List.nil_prefix⟩
  | @program i t l q q' r link own possible turn =>
    obtain ⟨hact, hpairs⟩ := acts_of_program (hp.pairs i l q link own) possible turn
    refine ⟨run_actions link hact, ?_, ?_⟩
    · simp [hp.length]
    · intro j l' p hl' hp'
      rw [List.getElem?_set] at hl' hp'
      split_ifs at hl' hp'
      · cases hl'
        cases hp'
        exact hpairs
      · exact hp.pairs j l' p hl' hp'
  | @server e net effects ofServer step =>
    have hserves := served_of_netStep ofServer step
    refine ⟨⟨[effects], ?_⟩, hp.length.trans hserves.length.symm, ?_⟩
    · rw [netEvents, if_pos ofServer]
      exact run_cons.mpr ⟨_, _, [], step, rfl, rfl⟩
    · intro i l' q hl' hq
      obtain ⟨l, hl, hs⟩ := hserves.served i l' hl'
      have hold := hp.pairs i l q hl hq
      exact ⟨fun hne => hs.stage.trans (hold.running hne), hold.arrived.trans hs.toClient⟩

/-- A request with a topic is resolved to its sender. -/
def AttributedTo (w : World) : WorldEvent → Prop
  | .server e => Attributed w.net e
  | _ => True

instance (w : World) : (e : WorldEvent) → Decidable (AttributedTo w e)
  | .server e => inferInstanceAs (Decidable (Attributed w.net e))
  | .starts _ _ => isTrue trivial
  | .program _ _ => isTrue trivial

private theorem attributed_netEvents (hc : AttributedTo w e) (o : WorldReport) :
    EachStep netStep Attributed w.net (netEvents e o) := by
  cases e with
  | starts peer id =>
    apply attributed_of_not_served
    intro e he
    obtain ⟨p, -, rfl⟩ := List.mem_map.mp he
    exact fun hserver => hserver
  | program i t =>
    cases o with
    | program r =>
      apply attributed_of_not_served
      intro e he
      obtain ⟨a, -, rfl⟩ := List.mem_map.mp he
      exact fun hserver => hserver
    | started j => trivial
    | server => trivial
  | server e =>
    rw [netEvents]
    split_ifs
    · exact ⟨hc, fun _ _ _ => trivial⟩
    · trivial

/-- The steps of a run as steps of the network. -/
def netRun (history : List (WorldEvent × WorldReport)) : List NetEvent :=
  history.flatMap fun h => netEvents h.1 h.2

/-- Every run of the whole system is a run of the network. -/
theorem net_follows {events : List WorldEvent} {reports : List WorldReport}
    (hc : EachStep (worldStep connectionFd) AttributedTo (begin k) events)
    (hr : run (worldStep connectionFd) (begin k) events = .ok (w, reports)) : ∃ effects,
    run netStep (ClientLinks.begin k) (netRun (events.zip reports)) = .ok (w.net, effects) ∧
      EachStep netStep Attributed (ClientLinks.begin k) (netRun (events.zip reports)) ∧
      Paired w := by
  have hstep : ∀ w n e w' o, (w.net = n ∧ Paired w) → AttributedTo w e →
      worldStep connectionFd w e = .ok (w', o) → ∃ n' effects,
        run netStep n (netEvents e o) = .ok (n', effects) ∧
        EachStep netStep Attributed n (netEvents e o) ∧ w'.net = n' ∧ Paired w' := by
    rintro w _ e w' o ⟨rfl, hp⟩ hc hs
    obtain ⟨⟨effects, hrun⟩, hp'⟩ := expands hp (steps_of_worldStep hs)
    exact ⟨_, effects, hrun, attributed_netEvents hc o, rfl, hp'⟩
  obtain ⟨n, effects, hrun, hattributed, rfl, hp⟩ :=
    run_of_expansion netEvents hstep ⟨rfl, paired_begin k⟩ hc hr
  exact ⟨effects, hrun, hattributed, hp⟩

def typedAt (i : ℕ) : WorldEvent × WorldReport → Bytes
  | (.program j t, _) => if j = i then SubscriberLoop.typedBy t else []
  | _ => []

/-- The line that `fgets` has returned. -/
def lineOf : Report → List Bytes
  | .obeyed line _ => [line]
  | _ => []

def linesAt (i : ℕ) : WorldEvent × WorldReport → List Bytes
  | (.program j _, .program r) => if j = i then lineOf r else []
  | _ => []

/-- What is sent for a line. -/
def packetsOf (connectionFd : ℕ) (line : Bytes) : List Packet :=
  match reply connectionFd (command line) with
  | .ok reaction => sentPackets reaction
  | .error _ => []

/-- The CONNECT, and what the lines ask for. -/
def saidBy (connectionFd i : ℕ) : WorldEvent × WorldReport → List Packet
  | (.starts _ id, .started j) => if j = i then startPackets id else []
  | (.program j _, .program r) => if j = i then (lineOf r).flatMap (packetsOf connectionFd) else []
  | _ => []

def handledFor (i : ℕ) : WorldEvent × WorldReport → List Packet
  | (.server e, _) => handledOn i e
  | _ => []

/-- What the server has not received yet. -/
def toServer (w : World) (i : ℕ) : Bytes := w.net.links[i]?.elim [] Link.toServer

/-- What was typed and is not part of a line that `fgets` has returned. -/
def waiting (w : World) (i : ℕ) : Bytes :=
  w.programs[i]?.elim [] fun q => q.console.stdio ++ q.console.kernel

private theorem typed_of_program (hs : programStep connectionFd q t = .ok (q', r)) :
    q.console.stdio ++ q.console.kernel ++ SubscriberLoop.typedBy t =
      (lineOf r).flatten ++ (q'.console.stdio ++ q'.console.kernel) := by
  cases t with
  | program n =>
    refine (List.append_nil _).trans ?_
    cases SubscriberLoop.moves_of_turn hs with
    | @obeys held kernel reaction offers =>
      have hcut : nextChunk held ++ held.drop (nextChunk held).length = held :=
        StandardInput.takeLine_append_drop _ held
      rw [← SubscriberLoop.append_of_offers offers, lineOf, List.flatten_singleton,
        ← List.append_assoc, hcut]
    | reads offers =>
      rw [← SubscriberLoop.append_of_offers offers]
      rfl
    | answers => rfl
    | receives => rfl
  | arrival a =>
    obtain ⟨ha, rfl⟩ := SubscriberLoop.arrival_cases hs
    cases a with
    | typed bs =>
      rw [SubscriberLoop.arrive_typed ha, List.append_assoc]
      rfl
    | segment seg =>
      obtain ⟨socket, -, rfl⟩ := SubscriberLoop.arrive_segment ha
      exact List.append_nil _

private theorem said_of_program (l : Link) (hs : programStep connectionFd q t = .ok (q', r)) :
    (after l r).toServer =
      l.toServer ++ ((lineOf r).flatMap (packetsOf connectionFd)).flatMap Packet.bytes := by
  cases t with
  | program n =>
    cases SubscriberLoop.moves_of_turn hs with
    | @obeys held kernel reaction offers complete text obeyed =>
      have hpackets : packetsOf connectionFd (nextChunk held) = sentPackets reaction := by
        rw [packetsOf, obeyed]
      rw [lineOf, List.flatMap_singleton, hpackets,
        ← SubscriberLoop.sends_eq_sentPackets (SubscriberLoop.replies_of_reply obeyed)]
      rfl
    | reads => exact (List.append_nil _).symm
    | answers => exact (List.append_nil _).symm
    | receives => exact (List.append_nil _).symm
  | arrival a =>
    obtain ⟨-, rfl⟩ := SubscriberLoop.arrival_cases hs
    exact (List.append_nil _).symm

/-- What is typed is cut into lines. -/
theorem typed_step (i : ℕ) (h : Steps connectionFd w e w' o) :
    waiting w i ++ typedAt i (e, o) = (linesAt i (e, o)).flatten ++ waiting w' i := by
  cases h with
  | starts =>
    rw [waiting, waiting, elim_concat]
    split_ifs with hi
    · rw [hi, List.getElem?_eq_none le_rfl]
      rfl
    · exact List.append_nil _
  | @program j t l q q' r link own possible turn =>
    rw [waiting, waiting, elim_set own, typedAt, linesAt]
    split_ifs with hj
    · rw [← hj, own]
      exact typed_of_program turn
    · exact List.append_nil _
  | server => exact List.append_nil _

/-- What the programs say is in the streams until the server has handled it. -/
theorem said_step (hp : Paired w) (i : ℕ) (h : Steps connectionFd w e w' o) :
    toServer w i ++ (saidBy connectionFd i (e, o)).flatMap Packet.bytes =
      (handledFor i (e, o)).flatMap Packet.bytes ++ toServer w' i := by
  cases h with
  | @starts peer id p packets action =>
    rw [toServer, toServer, elim_concat, saidBy, packets, ← hp.length]
    by_cases hi : i = w.programs.length
    · rw [if_pos hi, if_pos hi.symm, hi, hp.length, List.getElem?_eq_none le_rfl]
      exact List.append_nil _
    · rw [if_neg hi, if_neg (Ne.symm hi)]
      exact List.append_nil _
  | @program j t l q q' r link own possible turn =>
    rw [toServer, toServer, elim_set link, saidBy]
    split_ifs with hj
    · rw [← hj, link]
      exact (said_of_program l turn).symm
    · exact List.append_nil _
  | @server e net effects ofServer step =>
    have hserves := served_of_netStep ofServer step
    refine (List.append_nil _).trans ?_
    rw [toServer, toServer]
    cases hl' : net.links[i]? with
    | some l' =>
      obtain ⟨l, hl, hs⟩ := hserves.served i l' hl'
      rw [hl]
      exact hs.toServer
    | none =>
      have hnone : w.net.links[i]? = none := by
        rw [List.getElem?_eq_none_iff, ← hserves.length]
        exact List.getElem?_eq_none_iff.mp hl'
      rw [hnone, handledFor, hserves.nowhere i hnone]
      rfl

/-- The packets a program has received, each with what it has done about it. -/
def receivedBy (i : ℕ) : WorldEvent × WorldReport → List (Packet × Reaction)
  | (.program j _, .program (.received p reaction)) => if j = i then [(p, reaction)] else []
  | _ => []

/-- They are the packets that the network's subscriber has taken. -/
theorem taken_netEvents (i : ℕ) (h : WorldEvent × WorldReport) :
    (netEvents h.1 h.2).flatMap (taken i) = (receivedBy i h).map Prod.fst := by
  obtain ⟨e, o⟩ := h
  cases e with
  | starts peer id => simp [netEvents, taken, receivedBy, List.flatMap_map]
  | server e =>
    rw [netEvents]
    split_ifs with hserver
    · cases e with
      | client j a => exact hserver.elim
      | connect peer p => rfl
      | accept j fd p => rfl
      | serve j first p => rfl
      | datagram src data heap => rfl
    · rfl
  | program j t =>
    cases o with
    | started j => rfl
    | server => rfl
    | program r =>
      cases r with
      | quiet => rfl
      | obeyed line reaction =>
        simp only [netEvents, actionsOf, receivedBy]
        split_ifs
        · rfl
        · simp [taken, List.flatMap_map, List.map_map]
      | received p reaction =>
        simp only [netEvents, actionsOf, receivedBy, List.map_singleton, List.flatMap_singleton,
          taken]
        split_ifs <;> rfl

/-- What a program has done about a packet is the branch for it. -/
def Branched (connectionFd : ℕ) : WorldReport → Prop
  | .program (.received p reaction) =>
    socketBranch connectionFd (Memory.store (fun _ => 0) 0 p.bytes) = .ok reaction
  | _ => True

private theorem branched_step (h : Steps connectionFd w e w' o) : Branched connectionFd o := by
  cases h with
  | starts => trivial
  | server => trivial
  | @program j t l q q' r link own possible turn =>
    cases t with
    | program n =>
      cases SubscriberLoop.moves_of_turn turn with
      | obeys => trivial
      | reads => trivial
      | answers => trivial
      | receives phase busy front fits branch => exact branch
    | arrival a =>
      obtain ⟨-, rfl⟩ := SubscriberLoop.arrival_cases turn
      trivial

private theorem branch_of_received {i : ℕ} {e : WorldEvent} {x : Packet × Reaction}
    (hb : Branched connectionFd o) (hx : x ∈ receivedBy i (e, o)) :
    socketBranch connectionFd (Memory.store (fun _ => 0) 0 x.1.bytes) = .ok x.2 := by
  cases e with
  | starts peer id => cases hx
  | server e => cases hx
  | program j t =>
    cases o with
    | started j => cases hx
    | server => cases hx
    | program r =>
      cases r with
      | quiet => cases hx
      | obeyed line reaction => cases hx
      | received p reaction =>
        rw [receivedBy] at hx
        split_ifs at hx
        · obtain rfl := List.mem_singleton.mp hx
          exact hb
        · cases hx

private theorem reactions_of_posts {received : List (Packet × Reaction)} {shown : List Post}
    (hb : ∀ x ∈ received,
      socketBranch connectionFd (Memory.store (fun _ => 0) 0 x.1.bytes) = .ok x.2)
    (h : received.map Prod.fst = shown.map Post.packet) :
    received.map Prod.snd = shown.map (reactionTo connectionFd) := by
  induction received generalizing shown with
  | nil =>
    rw [List.map_nil, eq_comm, List.map_eq_nil_iff] at h
    rw [h]
    rfl
  | cons x received ih =>
    cases shown with
    | nil => cases h
    | cons q shown =>
      obtain ⟨hpacket, hrest⟩ := List.cons.inj h
      obtain ⟨hx, hreceived⟩ := List.forall_mem_cons.mp hb
      rw [hpacket, branch_of_store connectionFd q] at hx
      rw [List.map_cons, List.map_cons, ih hreceived hrest, Except.ok.inj hx]

/-- What a program shows and what is in the stream to it is what the broker has posted. -/
theorem shown_of_run {events : List WorldEvent} {reports : List WorldReport}
    (hc : EachStep (worldStep connectionFd) AttributedTo (begin k) events)
    (hr : run (worldStep connectionFd) (begin k) events = .ok (w, reports)) (i : ℕ) :
    ∃ shown pending,
      inbox i (follow hubStep Broker.empty (netRun (events.zip reports))).2 = shown ++ pending ∧
      ((events.zip reports).flatMap (receivedBy i)).map Prod.snd =
        shown.map (reactionTo connectionFd) ∧
      stream w.net i = pending.flatMap Post.bytes := by
  obtain ⟨effects, hrun, hattributed, -⟩ := net_follows hc hr
  obtain ⟨shown, pending, hposts, hshown, hrest⟩ :=
    packets_cut Post.packet (sent_eq_posted hattributed hrun i).symm
  refine ⟨shown, pending, hposts, reactions_of_posts ?_ ?_, hrest⟩
  · intro x hx
    have hall := (forall_outputs (I := fun _ => True)
      (fun w e w' o _ hs => ⟨trivial, branched_step (steps_of_worldStep hs)⟩) trivial hr).2
    obtain ⟨⟨e, o⟩, hmem, hreceived⟩ := List.mem_flatMap.mp hx
    exact branch_of_received (hall o (List.of_mem_zip hmem).2) hreceived
  · rw [← hshown, netRun, List.flatMap_assoc, List.map_flatMap]
    simp only [taken_netEvents]

/-- In a run of the server and of whole subscriber programs in which each request is resolved to
its sender: what is typed at a terminal is cut into lines; the CONNECT and what the lines ask for
is handled by the server in this order or still on the way; and the program prints the notices
that the broker has posted to it in their order, or ends at a refusal, while the others are still
on the way. -/
theorem terminal_to_terminal {events : List WorldEvent} {reports : List WorldReport}
    (hc : EachStep (worldStep connectionFd) AttributedTo (begin k) events)
    (hr : run (worldStep connectionFd) (begin k) events = .ok (w, reports)) (i : ℕ) :
    (events.zip reports).flatMap (typedAt i) =
        ((events.zip reports).flatMap (linesAt i)).flatten ++ waiting w i ∧
    (∃ pending, (events.zip reports).flatMap (saidBy connectionFd i) =
        (events.zip reports).flatMap (handledFor i) ++ pending ∧
      toServer w i = pending.flatMap Packet.bytes) ∧
    ∃ shown pending,
      inbox i (follow hubStep Broker.empty (netRun (events.zip reports))).2 = shown ++ pending ∧
      ((events.zip reports).flatMap (receivedBy i)).map Prod.snd =
        shown.map (reactionTo connectionFd) ∧
      stream w.net i = pending.flatMap Post.bytes := by
  refine ⟨?_, ?_, ?_⟩
  · have hlaw := conserved_by_steps (I := fun _ => True) (waiting · i) (typedAt i)
      (fun h => (linesAt i h).flatten) (fun w e w' o _ hs =>
        ⟨trivial, typed_step i (steps_of_worldStep hs)⟩) trivial hr
    rw [List.flatMap_def, List.flatMap_def, List.flatten_flatten, List.map_map]
    exact hlaw
  · have hlaw := conserved_by_steps (toServer · i)
      (fun h => (saidBy connectionFd i h).flatMap Packet.bytes)
      (fun h => (handledFor i h).flatMap Packet.bytes) (fun w e w' o hp hs =>
        ⟨(expands hp (steps_of_worldStep hs)).2, said_step hp i (steps_of_worldStep hs)⟩)
      (paired_begin k) hr
    have hempty : toServer (begin k) i = [] := rfl
    rw [hempty, List.nil_append, ← List.flatMap_assoc, ← List.flatMap_assoc] at hlaw
    obtain ⟨done, pending, hsaid, hdone, hrest⟩ := packets_cut (fun p => p) hlaw
    rw [List.map_id'] at hdone
    exact ⟨pending, hdone ▸ hsaid, hrest⟩
  · exact shown_of_run hc hr i

/-- What is sent for the datagram. -/
def sampleNotice : Post :=
  .notice samplePeer (byte 'p' :: List.replicate 55 0) (fun _ => 0) publication_known

/-- `A` types a subscription and half of an `exit`. It is shown the notice before it has typed the
rest. -/
def session : List WorldEvent :=
  [.starts samplePeer (ascii "A"), .server (.accept 0 5 (letterPacket connectAction 'A')),
    .program 0 (.arrival (.typed (ascii "subscribe p\n"))), .program 0 (.program 0),
    .program 0 (.program 12), .server (.serve 0 true (letterPacket subscribeAction 'p')),
    .server publication,
    .program 0 (.arrival (.segment (.data (sampleNotice.bytes.take 20)))), .program 0 (.program 0),
    .program 0 (.arrival (.typed (ascii "ex"))),
    .program 0 (.arrival (.segment (.data (sampleNotice.bytes.drop 20)))), .program 0 (.program 0),
    .program 0 (.program 0), .program 0 (.program 2), .program 0 (.arrival (.typed (ascii "it\n"))),
    .program 0 (.program 3)]

theorem terminal_to_terminal_session : ∃ w reports,
    run (worldStep 3) (begin sampleSockets) session = .ok (w, reports) ∧
    ((session.zip reports).flatMap (handledFor 0)).map Packet.bytes =
      [(letterPacket connectAction 'A').bytes, (letterPacket subscribeAction 'p').bytes] ∧
    ((session.zip reports).flatMap (receivedBy 0)).map Prod.snd = [reactionTo 3 sampleNotice] ∧
    ∀ i, (session.zip reports).flatMap (typedAt i) =
        ((session.zip reports).flatMap (linesAt i)).flatten ++ waiting w i ∧
      (∃ pending, (session.zip reports).flatMap (saidBy 3 i) =
          (session.zip reports).flatMap (handledFor i) ++ pending ∧
        toServer w i = pending.flatMap Packet.bytes) ∧
      ∃ shown pending,
        inbox i (follow hubStep Broker.empty (netRun (session.zip reports))).2 = shown ++ pending ∧
        ((session.zip reports).flatMap (receivedBy i)).map Prod.snd = shown.map (reactionTo 3) ∧
        stream w.net i = pending.flatMap Post.bytes := by
  have hrun : completesIn (worldStep 3) (fun _ reports =>
      decide (((session.zip reports).flatMap (handledFor 0)).map Packet.bytes =
        [(letterPacket connectAction 'A').bytes, (letterPacket subscribeAction 'p').bytes] ∧
      ((session.zip reports).flatMap (receivedBy 0)).map Prod.snd = [reactionTo 3 sampleNotice]))
        (begin sampleSockets) session = true := by
    decide +kernel
  obtain ⟨w, reports, hr, ht⟩ := exists_run_of_completesIn hrun
  obtain ⟨hhandled, hshown⟩ := of_decide_eq_true ht
  refine ⟨w, reports, hr, hhandled, hshown, ?_⟩
  exact fun i => terminal_to_terminal (by decide +kernel) hr i

end MessageBroker.WholeSystem
