import MessageBroker.DescriptorLifetimes
import MessageBroker.NotificationLayout
import MessageBroker.SubscriberHandlers

/-!
# Subscribers, the server and the streams between them

A link is a subscriber with its end of a connection, the server's end, and the two streams
of bytes in transit. A reader waits until a whole packet is there, so that one step consumes
one packet; all orders of these steps are possible.
-/
namespace MessageBroker.ClientLinks
open ByteStrings WireFormat ServerStops PollArray Notification SubscriberHandlers
open ServerHandlers HandlerOutcomes ServerRuns TransitionRuns ClientTable

/-- The server's end: not accepted yet, accepted and refused, or accepted and admitted. -/
inductive ServerEnd
  | pending
  | refused (fd : ℕ)
  | admitted (c : Connection)
  deriving DecidableEq

/-- The subscriber is `exiting` between the two halves of `handle_shutdown`. It is `dismissed`
when it has closed its socket because the server told it to. -/
inductive Stage
  | running
  | exiting
  | exited
  | dismissed
  deriving DecidableEq

structure Link where
  peer : SockAddrIn
  server : ServerEnd
  stage : Stage
  toServer : Bytes
  toClient : Bytes

/-- The descriptor of the server's end while it is open. -/
def Link.serverFd (l : Link) (s : Sys) : Option ℕ :=
  match l.server with
  | .pending => none
  | .refused fd => some fd
  | .admitted c => if c ∈ inTable s then some c.fd else none

def Link.connection (l : Link) : Option Connection :=
  match l.server with
  | .admitted c => some c
  | _ => none

structure Net where
  sys : Sys
  links : List Link

def begin (k : Sockets) : Net := ⟨start k, []⟩

inductive ClientAction
  | request (p : Packet)
  | exit
  | close
  | receive (p : Packet)

inductive NetEvent
  | connect (peer : SockAddrIn) (p : Packet)
  | client (i : ℕ) (a : ClientAction)
  | accept (i fd : ℕ) (p : Packet)
  | serve (i : ℕ) (firstOfPass : Bool) (p : Packet)
  | datagram (src : SockAddrIn) (data : Bytes) (heap : Memory)

/-- What `handle_shutdown` sends before it closes the socket. -/
def exitBytes : Bytes := (sends (handleShutdown 3)).flatMap Prod.snd

theorem exitBytes_eq : exitBytes = shutdownPacket.bytes := by
  rw [exitBytes, handleShutdown_eq]
  rfl

/-- `none` is an action that the subscriber cannot take. -/
def clientStep : ClientAction → Link → Option Link
  | .request p, l =>
    if l.stage = .running ∧ (p.action = subscribeAction ∨ p.action = unsubscribeAction) then
      some { l with toServer := l.toServer ++ p.bytes }
    else none
  | .exit, l =>
    if l.stage = .running then
      some { l with stage := .exiting, toServer := l.toServer ++ exitBytes }
    else none
  | .close, l => if l.stage = .exiting then some { l with stage := .exited } else none
  | .receive p, l =>
    if l.stage = .running ∧ p.bytes <+: l.toClient then
      -- the `switch` of `run_subscriber`
      let stage := if p.action = shutdownIntruder ∨ p.action = shutdownClose then .dismissed
        else .running
      some { l with stage := stage, toClient := l.toClient.drop p.bytes.length }
    else none

/-- What is sent on the server's end of the link arrives in its stream. -/
def Link.deliver (s : Sys) (effects : List Effect) (l : Link) : Link :=
  { l with toClient := l.toClient ++
      (sends effects).flatMap (fun q => if l.serverFd s = some q.1 then q.2 else []) }

/-- A packet is taken from the front of the stream to the server. -/
def Link.consume (l : Link) (p : Packet) (server : ServerEnd) : Link :=
  { l with server := server, toServer := l.toServer.drop p.bytes.length }

/-- The server takes a step for the link with this number. -/
def advance (n : Net) (i : ℕ) (l : Link) (e : Event) (server : Sys → List Effect → ServerEnd)
    (p : Packet) : Except Halt (Net × List Effect) := do
  let (sys, effects) ← step n.sys e
  let links := n.links.set i (l.consume p (server sys effects))
  .ok (⟨sys, links.map (Link.deliver sys effects)⟩, effects)

def netStep : Transition Net NetEvent (List Effect) Halt
  | n, .connect peer p =>
    if p.action = connectAction then
      .ok (⟨n.sys, n.links ++ [⟨peer, .pending, .running, p.bytes, []⟩]⟩, [])
    else .error .impossible
  | n, .client i a =>
    match n.links[i]?.bind (clientStep a) with
    | some l => .ok (⟨n.sys, n.links.set i l⟩, [])
    | none => .error .impossible
  | n, .accept i fd p =>
    match n.links[i]? with
    | none => .error .impossible
    | some l =>
      if l.server = .pending ∧ p.bytes <+: l.toServer then
        advance n i l (.connect fd l.peer p) (fun _ effects =>
          if sends effects = [] then .admitted ⟨n.sys.admitted.length, fd, p.text⟩
          else .refused fd) p
      else .error .impossible
  | n, .serve i firstOfPass p =>
    match n.links[i]? with
    | none => .error .impossible
    | some l =>
      match l.connection with
      | none => .error .impossible
      | some c =>
        if c ∈ inTable n.sys ∧ p.bytes <+: l.toServer then
          advance n i l (.packet firstOfPass c.fd p) (fun _ _ => l.server) p
        else .error .impossible
  | n, .datagram src data heap => do
    let (sys, effects) ← step n.sys (.datagram src data heap)
    .ok (⟨sys, n.links.map (Link.deliver sys effects)⟩, effects)

variable {n n' : Net} {i : ℕ} {effects : List Effect}

theorem client_cases {a : ClientAction} (h : netStep n (.client i a) = .ok (n', effects)) :
    ∃ l l', n.links[i]? = some l ∧ clientStep a l = some l' ∧ n' = ⟨n.sys, n.links.set i l'⟩ := by
  rw [netStep] at h
  split at h
  · rename_i l' hl'
    obtain ⟨l, hl, hstep⟩ := Option.bind_eq_some_iff.mp hl'
    cases h
    exact ⟨l, l', hl, hstep, rfl⟩
  · cases h

theorem advance_cases {l : Link} {e : Event} {server : Sys → List Effect → ServerEnd} {p : Packet}
    (h : advance n i l e server p = .ok (n', effects)) : ∃ sys, step n.sys e = .ok (sys, effects) ∧
      n' = ⟨sys, (n.links.set i (l.consume p (server sys effects))).map
        (Link.deliver sys effects)⟩ := by
  obtain ⟨⟨sys, fx⟩, hs, he⟩ := bind_eq_ok.mp h
  cases he
  exact ⟨sys, hs, rfl⟩

theorem accept_cases {fd : ℕ} {p : Packet} (h : netStep n (.accept i fd p) = .ok (n', effects)) :
    ∃ l, n.links[i]? = some l ∧ l.server = .pending ∧ p.bytes <+: l.toServer ∧
      advance n i l (.connect fd l.peer p) (fun _ effects =>
        if sends effects = [] then .admitted ⟨n.sys.admitted.length, fd, p.text⟩
        else .refused fd) p = .ok (n', effects) := by
  rw [netStep] at h
  split at h
  · cases h
  · rename_i l hl
    split_ifs at h with hc
    exact ⟨l, hl, hc.1, hc.2, h⟩

theorem serve_cases {first : Bool} {p : Packet}
    (h : netStep n (.serve i first p) = .ok (n', effects)) :
    ∃ l c, n.links[i]? = some l ∧ l.server = .admitted c ∧ c ∈ inTable n.sys ∧
      p.bytes <+: l.toServer ∧
      advance n i l (.packet first c.fd p) (fun _ _ => l.server) p = .ok (n', effects) := by
  rw [netStep] at h
  split at h
  · cases h
  · rename_i l hl
    split at h
    · cases h
    · rename_i c hc
      split_ifs at h with hin
      refine ⟨l, c, hl, ?_, hin.1, hin.2, h⟩
      rw [Link.connection] at hc
      split at hc
      · cases hc
        assumption
      · cases hc

theorem datagram_cases {src : SockAddrIn} {data : Bytes} {heap : Memory}
    (h : netStep n (.datagram src data heap) = .ok (n', effects)) :
    ∃ sys, step n.sys (.datagram src data heap) = .ok (sys, effects) ∧
      n' = ⟨sys, n.links.map (Link.deliver sys effects)⟩ := by
  obtain ⟨⟨sys, fx⟩, hs, he⟩ := bind_eq_ok.mp h
  cases he
  exact ⟨sys, hs, rfl⟩

private theorem deliver_of_sends_nil (s : Sys) {effects : List Effect} (h : sends effects = [])
    (l : Link) : l.deliver s effects = l := by
  rw [Link.deliver, h, List.flatMap_nil, List.append_nil]

theorem map_deliver_of_sends_nil (s : Sys) {effects : List Effect} (h : sends effects = [])
    (links : List Link) : links.map (Link.deliver s effects) = links := by
  rw [List.map_congr_left (fun l _ => deliver_of_sends_nil s h l), List.map_id']

/-- A link of the changed list is the new one or one from before, and the others are still in. -/
theorem mem_of_mem_set {l l' : Link} {links : List Link} (h : l ∈ links.set i l') :
    l = l' ∨ l ∈ links := (List.mem_or_eq_of_mem_set h).symm

theorem mem_set_or {l old new : Link} {links : List Link} (hold : links[i]? = some old)
    (hl : l ∈ links) : l = old ∨ l ∈ links.set i new := by
  obtain ⟨j, hj⟩ := List.mem_iff_getElem?.mp hl
  by_cases hij : i = j
  · subst hij
    rw [hold] at hj
    exact .inl (Option.some.inj hj).symm
  · right
    apply List.mem_iff_getElem?.mpr
    exact ⟨j, (List.getElem?_set_ne hij).trans hj⟩

/-- The stream consists of packets that fulfil a condition. -/
def Carries (P : Packet → Prop) (bs : Bytes) : Prop :=
  ∃ ps : List Packet, bs = ps.flatMap Packet.bytes ∧ ∀ p ∈ ps, P p

variable {P : Packet → Prop} {p q : Packet} {bs : Bytes}

theorem carries_nil (P : Packet → Prop) : Carries P [] := ⟨[], rfl, by simp⟩

theorem Carries.append {bs' : Bytes} (h : Carries P bs) (h' : Carries P bs') :
    Carries P (bs ++ bs') := by
  obtain ⟨ps, rfl, hps⟩ := h
  obtain ⟨ps', rfl, hps'⟩ := h'
  refine ⟨ps ++ ps', List.flatMap_append.symm, ?_⟩
  intro p hp
  rcases List.mem_append.mp hp with hp | hp
  · exact hps p hp
  · exact hps' p hp

theorem carries_packet (h : P p) : Carries P p.bytes :=
  ⟨[p], by simp, by simpa using h⟩

theorem Carries.flatMap {α : Type} {f : α → Bytes} {xs : List α} (h : ∀ x ∈ xs, Carries P (f x)) :
    Carries P (xs.flatMap f) := by
  induction xs with
  | nil => exact carries_nil P
  | cons x xs ih =>
    have hrest := ih (fun y hy => h y (List.mem_cons_of_mem x hy))
    exact (h x List.mem_cons_self).append hrest

/-- The packet at the front is the one that is there. -/
theorem eq_of_front {rest : Bytes} (h : p.bytes <+: q.bytes ++ rest) :
    p = q ∧ (q.bytes ++ rest).drop p.bytes.length = rest := by
  obtain ⟨t, ht⟩ := h
  obtain ⟨rfl, rfl⟩ := Packet.append_inj ht
  exact ⟨rfl, List.drop_left⟩

theorem Carries.pop (h : Carries P bs) (hp : p.bytes <+: bs) :
    P p ∧ Carries P (bs.drop p.bytes.length) := by
  obtain ⟨ps, rfl, hps⟩ := h
  cases ps with
  | nil =>
    have hpos := p.length_bytes_pos
    rw [List.prefix_nil.mp hp] at hpos
    cases hpos
  | cons q ps =>
    rw [List.flatMap_cons] at hp ⊢
    obtain ⟨rfl, hdrop⟩ := eq_of_front hp
    refine ⟨hps p List.mem_cons_self, ps, hdrop, ?_⟩
    exact fun r hr => hps r (List.mem_cons_of_mem p hr)

/-- The stream ends with this packet. -/
def EndsWith (q : Packet) (bs : Bytes) : Prop :=
  ∃ before, Carries (fun _ => True) before ∧ bs = before ++ q.bytes

theorem EndsWith.ne_nil (h : EndsWith q bs) : bs ≠ [] := by
  obtain ⟨before, -, rfl⟩ := h
  intro hnil
  have hpos := q.length_bytes_pos
  rw [(List.append_eq_nil_iff.mp hnil).2] at hpos
  cases hpos

/-- Only the last packet ends the stream. -/
theorem EndsWith.pop (h : EndsWith q bs) (hp : p.bytes <+: bs) :
    p = q ∨ EndsWith q (bs.drop p.bytes.length) := by
  obtain ⟨before, ⟨ps, rfl, hps⟩, rfl⟩ := h
  cases ps with
  | nil =>
    rw [List.flatMap_nil, List.nil_append, ← List.append_nil q.bytes] at hp
    exact .inl (eq_of_front hp).1
  | cons r ps =>
    rw [List.flatMap_cons, List.append_assoc] at hp ⊢
    obtain ⟨rfl, hdrop⟩ := eq_of_front hp
    right
    exact ⟨ps.flatMap Packet.bytes, ⟨ps, rfl, fun _ _ => trivial⟩, hdrop⟩

end MessageBroker.ClientLinks
