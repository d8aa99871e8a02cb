import Mathlib.Algebra.Order.BigOperators.Group.Finset
import MessageBroker.WholeSystem

/-!
# What is posted is shown in the end

When nothing more is typed or published, the whole system comes to rest after a bounded number of
steps, and each program has shown what was posted to it, unless it has ended or waits for the rest
of a line.
-/
namespace MessageBroker.EventualDelivery
open ByteStrings WireFormat ServerStops Notification NotificationLayout NotificationDisplay
open SubscriberHandlers CommandLine TransitionRuns HandlerOutcomes ServerRuns ClientTable
open PublishSubscribe OrderlyExit ServicePass StreamDelivery SubscriberOutput WholeSystem
open ClientLinks hiding begin
open BrokerRefinement (ClientBroker)
open SubscriberLoop (Program Report Turn programStep)

/-- The program takes its turns, and what is on the way to it arrives. -/
def OwnTurn : Turn → Prop
  | .arrival (.typed _) => False
  | .arrival (.segment (.data bs)) => bs ≠ []
  | .arrival (.segment .fin) => True
  | .program _ => True

/-- Nothing is typed, published or started. The server handles what is there, if a request is
resolved to its sender. -/
def Own (w : World) : WorldEvent → Prop
  | .starts _ _ => False
  | .program _ t => OwnTurn t
  | .server (.datagram _ _ _) => False
  | .server e => Attributed w.net e

variable {connectionFd i : ℕ} {l l' : Link} {q q' : Program} {r : Report} {t : Turn} {s : Sys}
  {k : Sockets} {w w' : World} {e : WorldEvent} {o : WorldReport}

private theorem attributedTo_of_own (h : Own w e) : AttributedTo w e := by
  cases e with
  | starts peer id => trivial
  | program i t => trivial
  | server e =>
    cases e with
    | datagram src data heap => trivial
    | connect peer p => trivial
    | client i a => trivial
    | accept i fd p => trivial
    | serve i first p => exact h

/-- The server follows its broker, and a program that has met the end of its stream has all that
will ever be in it. -/
structure Sound (k : Sockets) (w : World) : Prop where
  paired : Paired w
  delivers : ∃ b, Delivers k w.net b
  gone : ∀ (i : ℕ) l q, w.net.links[i]? = some l → w.programs[i]? = some q →
    q.socket.ended = true →
      q.socket.unread = l.toClient ∧ ∃ c, l.server = .admitted c ∧ c ∉ w.net.sys.live

private theorem sound_begin (k : Sockets) : Sound k (begin k) where
  paired := paired_begin k
  delivers := ⟨Broker.empty, delivers_begin k⟩
  gone := by simp [begin]

private theorem server_after (l : Link) (r : Report) : (after l r).server = l.server := by
  cases r <;> rfl

/-- Behind the end of the stream nothing changes but what the program takes. -/
theorem gone_program (hpossible : Possible s l q t)
    (hs : programStep connectionFd q t = .ok (q', r))
    (hgone : q.socket.ended = true →
      q.socket.unread = l.toClient ∧ ∃ c, l.server = .admitted c ∧ c ∉ inTable s)
    (hended : q'.socket.ended = true) :
    q'.socket.unread = (after l r).toClient ∧
      ∃ c, (after l r).server = .admitted c ∧ c ∉ inTable s := by
  rw [server_after]
  cases t with
  | program n =>
    cases SubscriberLoop.moves_of_turn hs with
    | obeys => exact hgone hended
    | reads => exact hgone hended
    | answers => exact hgone hended
    | @receives p rest reaction phase busy front =>
      obtain ⟨hunread, hdead⟩ := hgone hended
      refine ⟨?_, hdead⟩
      simp only [after]
      rw [← hunread, eq_of_frontPacket front, List.drop_left]
  | arrival a =>
    obtain ⟨ha, rfl⟩ := SubscriberLoop.arrival_cases hs
    cases a with
    | typed bs =>
      rw [SubscriberLoop.arrive_typed ha] at hended ⊢
      exact hgone hended
    | segment seg =>
      obtain ⟨socket, hpush, rfl⟩ := SubscriberLoop.arrive_segment ha
      cases seg with
      | data bs =>
        rw [ServiceLoop.Socket.push] at hpush
        split_ifs at hpush with hopen
        cases hpush
        exact absurd hended hopen
      | fin =>
        rw [ServiceLoop.Socket.push] at hpush
        split_ifs at hpush
        cases hpush
        obtain ⟨hunread, c, hc, hdead⟩ := hpossible
        refine ⟨hunread, c, ?_, hdead⟩
        rw [Link.connection] at hc
        split at hc
        · cases hc
          assumption
        · cases hc

private theorem sys_step_of_netStep {n n' : Net} {e : NetEvent} {effects : List Effect}
    (he : OfServer e) (hs : netStep n e = .ok (n', effects)) :
    ∃ ev, step n.sys ev = .ok (n'.sys, effects) := by
  cases e with
  | connect peer p => exact he.elim
  | client j a => exact he.elim
  | accept j fd p =>
    obtain ⟨l, -, -, -, h⟩ := accept_cases hs
    obtain ⟨sys, hstep, rfl⟩ := advance_cases h
    exact ⟨_, hstep⟩
  | serve j first p =>
    obtain ⟨l, c, -, -, -, -, h⟩ := serve_cases hs
    obtain ⟨sys, hstep, rfl⟩ := advance_cases h
    exact ⟨_, hstep⟩
  | datagram src data heap =>
    obtain ⟨sys, hstep, rfl⟩ := datagram_cases hs
    exact ⟨_, hstep⟩

private theorem taken_of_server {e : NetEvent} (he : OfServer e) (i : ℕ) : taken i e = [] := by
  cases e with
  | connect peer p => exact he.elim
  | client j a => exact he.elim
  | accept j fd p => rfl
  | serve j first p => rfl
  | datagram src data heap => rfl

/-- Nothing is posted to a connection that is no longer in the table. -/
theorem posted_gone {n : Net} {b : ClientBroker} {e : NetEvent} {effects : List Effect} {n' : Net}
    (h : Delivers k n b) (he : OfServer e) (hs : netStep n e = .ok (n', effects)) {c : Connection}
    (hc : serverEnd n.links i = .admitted c) (hdead : c ∉ n.sys.live) :
    posted i (hubStep b e).2 = [] := by
  cases e with
  | connect peer p => exact he.elim
  | client j a => exact he.elim
  | accept j fd p =>
    obtain ⟨l, hl, hpend, -⟩ := accept_cases hs
    have hne : i ≠ j := by
      rintro rfl
      rw [serverEnd_of_getElem? hl, hpend] at hc
      cases hc
    rw [hubStep]
    split_ifs
    · exact if_neg (by simpa using hne)
    · rfl
  | serve j first p => rfl
  | datagram src data heap =>
    rw [hubStep]
    split_ifs
    · refine if_neg ?_
      intro hmem
      obtain ⟨x, hx, -⟩ := Broker.mem_recipients.mp hmem
      obtain ⟨c', hlive, hend, -⟩ := (h.seats i x).mp hx
      rw [hc] at hend
      cases hend
      exact hdead hlive
    · rfl

private theorem stays_admitted {c : Connection} {posts : List Post} {e : ServerEnd}
    (h : Says (.admitted c) posts e) : e = .admitted c := by
  cases h with
  | nothing => rfl
  | notifies => rfl

private theorem sound_step (h : Sound k w) (hc : AttributedTo w e)
    (hs : Steps connectionFd w e w' o) : Sound k w' := by
  have hpaired := (expands h.paired hs).2
  obtain ⟨b, hb⟩ := h.delivers
  cases hs with
  | @starts peer id p packets action =>
    have hstep : netStep w.net (.connect peer p) =
        .ok (⟨w.net.sys, w.net.links ++ [⟨peer, .pending, .running, p.bytes, []⟩]⟩, []) := by
      rw [netStep, if_pos action]
    refine ⟨hpaired, ⟨_, (passes_connect hb hstep).delivers⟩, ?_⟩
    intro i l q hl hq hended
    rw [List.getElem?_append] at hl hq
    rw [h.paired.length] at hq
    split_ifs at hl hq
    · exact h.gone i l q hl hq hended
    · obtain rfl := List.mem_singleton.mp (List.mem_of_getElem? hq)
      cases hended
  | @program i t l q q' r link own possible turn =>
    have hends (j : ℕ) : serverEnd (w.net.links.set i (after l r)) j =
        serverEnd w.net.links j := by
      rw [serverEnd_set link]
      split_ifs with hj
      · rw [hj, server_after, serverEnd_of_getElem? link]
      · rfl
    refine ⟨hpaired, ⟨b, hb.congr rfl hends⟩, ?_⟩
    intro j l' p hl' hp' hended
    rw [List.getElem?_set] at hl' hp'
    split_ifs at hl' hp'
    · cases hl'
      cases hp'
      have hold := h.gone i l q link own
      rw [← inTable_eq hb.inv] at hold ⊢
      exact gone_program possible turn hold hended
    · exact h.gone j l' p hl' hp' hended
  | @server e net effects ofServer step =>
    have hserves := served_of_netStep ofServer step
    have hpasses := passes_step hb hc step
    obtain ⟨ev, hev⟩ := sys_step_of_netStep ofServer step
    have hkept := kept_of_outcome (outcome_of_step hb.inv hev)
    refine ⟨hpaired, ⟨_, hpasses.delivers⟩, ?_⟩
    intro i l' q hl' hq hended
    obtain ⟨l, hl, -⟩ := hserves.served i l' hl'
    obtain ⟨hunread, c, hadmitted, hdead⟩ := h.gone i l q hl hq hended
    have hend : serverEnd w.net.links i = .admitted c :=
      (serverEnd_of_getElem? hl).trans hadmitted
    have hposted := posted_gone hb ofServer step hend hdead
    have hlaw := hpasses.law i
    have hturn := hpasses.turn i
    rw [hposted, taken_of_server ofServer, stream, stream, hl, hl'] at hlaw
    rw [hend] at hturn
    refine ⟨hunread.trans (by simpa using hlaw), c, ?_, ?_⟩
    · exact (serverEnd_of_getElem? hl').symm.trans (stays_admitted hturn)
    · intro hlive
      rcases hkept.live c hlive with hmem | ⟨hserial, -⟩
      · exact hdead hmem
      · exact absurd hserial (hb.serial i c hend).ne

/-- What is typed and not obeyed yet, and the call that looks at it. -/
def typedWork (q : Program) : ℕ :=
  3 * q.console.kernel.length + 2 * q.console.stdio.length +
    if q.console.phase = .polling then 1 else 0

/-- A line becomes at most one packet of at most 56 bytes. A byte on its way to the program is to
arrive and to be received, and a packet to the server may bring a refusal back. -/
def linkWork (toClient toServer : Bytes) (q : Program) : ℕ :=
  120 * typedWork q + ((if q.receiving then 0 else 1) + if q.socket.ended then 0 else 1) +
    2 * toClient.length + (toClient.length - q.socket.unread.length) + 4 * toServer.length

def workAt (w : World) (i : ℕ) : ℕ :=
  w.programs[i]?.elim 0 (linkWork (stream w.net i) (toServer w i))

def work (w : World) : ℕ := ∑ i ∈ Finset.range w.programs.length, workAt w i

private theorem length_sends_le {line : Bytes} {reaction : Reaction}
    (h : reply connectionFd line = .ok reaction) :
    ((sends reaction.effects).flatMap Prod.snd).length ≤ 56 := by
  have hrequest {action : UInt8} {announcement w : Bytes}
      (hr : requestIfFits action announcement connectionFd w = .ok reaction) :
      ((sends reaction.effects).flatMap Prod.snd).length ≤ 56 := by
    rw [requestIfFits] at hr
    split_ifs at hr with hlen
    cases hr
    simp [request, sends, maxTopic] at hlen ⊢
    omega
  rw [reply] at h
  split_ifs at h
  · cases h
    rw [handleShutdown_eq]
    change (shutdownPacket.bytes ++ []).length ≤ 56
    decide
  · exact hrequest h
  · exact hrequest h
  · cases h
    exact Nat.zero_le 56

private theorem typedWork_lt {held kernel : Bytes} (offers : SubscriberLoop.Offers q held kernel) :
    3 * kernel.length + 2 * held.length < typedWork q :=
  SubscriberLoop.length_of_offers offers

private theorem program_work_lt (hp : Pairs l q) (hpossible : Possible s l q t) (hown : OwnTurn t)
    (hs : programStep connectionFd q t = .ok (q', r)) :
    linkWork (after l r).toClient (after l r).toServer q' < linkWork l.toClient l.toServer q := by
  have hunread := hp.arrived.length_le
  cases t with
  | program n =>
    cases SubscriberLoop.moves_of_turn hs with
    | @obeys held kernel reaction offers complete text obeyed =>
      have hlt := typedWork_lt offers
      have hsent := length_sends_le obeyed
      have hchunk : 0 < (nextChunk held).length := by
        rw [List.length_pos_iff]
        rintro hnil
        exact text (by rw [hnil]; rfl)
      have hle : (nextChunk held).length ≤ held.length :=
        (StandardInput.takeLine_front _ held).length_le
      simp only [after, linkWork, List.length_append]
      rw [typedWork]
      simp only [List.length_drop]
      split_ifs <;> omega
    | reads offers =>
      have hlt := typedWork_lt offers
      simp only [after, linkWork]
      rw [typedWork]
      simp only [reduceCtorEq, if_false]
      omega
    | answers phase free =>
      simp only [after, linkWork, typedWork, free, if_true, Bool.false_eq_true, if_false]
      omega
    | @receives p rest reaction phase busy front =>
      have hlen := congrArg List.length (eq_of_frontPacket front)
      have hpos := p.length_bytes
      rw [List.length_append] at hlen
      simp only [sizeofTcpHdr] at hpos
      simp only [after, linkWork, typedWork, busy, phase, hlen, List.length_drop]
      split_ifs <;> omega
  | arrival a =>
    obtain ⟨ha, rfl⟩ := SubscriberLoop.arrival_cases hs
    cases a with
    | typed bs => exact hown.elim
    | segment seg =>
      obtain ⟨socket, hpush, rfl⟩ := SubscriberLoop.arrive_segment ha
      cases seg with
      | data bs =>
        rw [ServiceLoop.Socket.push] at hpush
        split_ifs at hpush with hopen
        cases hpush
        have hpos : 0 < bs.length := List.length_pos_iff.mpr hown
        have hle := List.IsPrefix.length_le hpossible
        rw [List.length_append] at hle
        simp only [after, linkWork, typedWork, hopen, List.length_append]
        omega
      | fin =>
        rw [ServiceLoop.Socket.push] at hpush
        split_ifs at hpush with hopen
        cases hpush
        simp only [after, linkWork, typedWork, hopen, if_true, Bool.false_eq_true, if_false]
        omega

private theorem work_lt_of_workAt (hlen : w'.programs.length = w.programs.length)
    (hle : ∀ j, workAt w' j ≤ workAt w j) (hi : i < w.programs.length)
    (hlt : workAt w' i < workAt w i) : work w' < work w := by
  rw [work, work, hlen]
  exact Finset.sum_lt_sum (fun j _ => hle j) ⟨i, Finset.mem_range.mpr hi, hlt⟩

private theorem workAt_eq (hl : w.net.links[i]? = some l) (hq : w.programs[i]? = some q) :
    workAt w i = linkWork l.toClient l.toServer q := by
  rw [workAt, hq, stream, toServer, hl]
  rfl

private theorem workAt_set (link : w.net.links[i]? = some l) (own : w.programs[i]? = some q)
    (j : ℕ) :
    workAt ⟨⟨w.net.sys, w.net.links.set i l'⟩, w.programs.set i q'⟩ j =
      if i = j then linkWork l'.toClient l'.toServer q' else workAt w j := by
  obtain ⟨hlink, -⟩ := List.getElem?_eq_some_iff.mp link
  obtain ⟨hown, -⟩ := List.getElem?_eq_some_iff.mp own
  split_ifs with hij
  · subst hij
    exact workAt_eq (List.getElem?_set_self hlink) (List.getElem?_set_self hown)
  · rw [workAt, workAt, stream, stream, toServer, toServer, List.getElem?_set_ne hij,
      List.getElem?_set_ne hij]

/-- A packet that the server handles is longer than a refusal. -/
theorem linkWork_le {stream stream' bs bs' handled more : Bytes} (q : Program)
    (hbs : bs = handled ++ bs') (hstream : stream' = stream ++ more)
    (hmore : 3 * more.length ≤ 4 * handled.length) :
    linkWork stream' bs' q ≤ linkWork stream bs q ∧
      (3 * more.length < 4 * handled.length → linkWork stream' bs' q < linkWork stream bs q) := by
  subst hbs hstream
  simp only [linkWork, List.length_append]
  constructor <;> omega

/-- The link and the packet of a step of the server that is no datagram. -/
theorem handled_of_server {n n' : Net} {b : ClientBroker} {e : NetEvent} {effects : List Effect}
    (hown : OfServer e) (hdatagram : ∀ src data heap, e ≠ .datagram src data heap)
    (hs : netStep n e = .ok (n', effects)) : ∃ i p, i < n.links.length ∧
      (∀ j, handledOn j e = if i = j then [p] else []) ∧
      ∀ j, ((posted j (hubStep b e).2).flatMap Post.bytes).length ≤ if i = j then 5 else 0 := by
  cases e with
  | connect peer p => exact hown.elim
  | client j a => exact hown.elim
  | datagram src data heap => exact absurd rfl (hdatagram src data heap)
  | accept i fd p =>
    obtain ⟨l, hl, -⟩ := accept_cases hs
    refine ⟨i, p, (List.getElem?_eq_some_iff.mp hl).1, fun _ => rfl, ?_⟩
    intro j
    rw [hubStep]
    split_ifs with hconn hij
    · subst hij
      simp [posted, Post.bytes, Post.packet, Packet.length_bytes, sizeofTcpHdr]
    · have hne : j ≠ i := Ne.symm hij
      simp [posted, hne]
    · exact Nat.zero_le _
    · exact Nat.zero_le _
  | serve i first p =>
    obtain ⟨l, c, hl, -⟩ := serve_cases hs
    exact ⟨i, p, (List.getElem?_eq_some_iff.mp hl).1, fun _ => rfl, fun j => Nat.zero_le _⟩

private theorem work_lt (h : Sound k w) (hown : Own w e) (hs : Steps connectionFd w e w' o) :
    work w' < work w := by
  have hattributed := attributedTo_of_own hown
  cases hs with
  | starts => exact hown.elim
  | @program i t l q q' r link own possible turn =>
    obtain ⟨hlt, -⟩ := List.getElem?_eq_some_iff.mp own
    have hone := program_work_lt (h.paired.pairs i l q link own) possible hown turn
    rw [← workAt_eq link own] at hone
    refine work_lt_of_workAt (i := i) List.length_set ?_ hlt ?_
    · intro j
      rw [workAt_set link own]
      split_ifs with hij
      · exact (hij ▸ hone).le
      · exact le_rfl
    · rw [workAt_set link own, if_pos rfl]
      exact hone
  | @server e net effects ofServer step =>
    obtain ⟨b, hb⟩ := h.delivers
    have hpasses := passes_step hb hattributed step
    have hserves := served_of_netStep ofServer step
    have hdatagram : ∀ src data heap, e ≠ .datagram src data heap := by
      rintro src data heap rfl
      exact hown
    obtain ⟨i, p, hi, hhandled, hposted⟩ := handled_of_server (b := b) ofServer hdatagram step
    have hlink (j : ℕ) (q : Program) :
        linkWork (stream net j) (toServer ⟨net, w.programs⟩ j) q ≤
            linkWork (stream w.net j) (toServer w j) q ∧
          (i = j → linkWork (stream net j) (toServer ⟨net, w.programs⟩ j) q <
            linkWork (stream w.net j) (toServer w j) q) := by
      have hlaw := hpasses.law j
      rw [taken_of_server ofServer, List.flatMap_nil, List.nil_append] at hlaw
      have hsaid := said_step h.paired j (@Steps.server connectionFd _ _ _ _ ofServer step)
      rw [handledFor, hhandled j] at hsaid
      have hmore := hposted j
      have hlen : ((if i = j then [p] else []).flatMap Packet.bytes).length =
          if i = j then sizeofTcpHdr + p.payload.length else 0 := by
        split_ifs
        · rw [List.flatMap_singleton, p.length_bytes]
        · rfl
      simp only [sizeofTcpHdr] at hlen
      obtain ⟨hle, hlt⟩ := linkWork_le q ((List.append_nil _).symm.trans hsaid) hlaw.symm (by
        rw [hlen]
        split_ifs at hmore ⊢ <;> omega)
      refine ⟨hle, fun hij => hlt ?_⟩
      rw [hlen, if_pos hij]
      rw [if_pos hij] at hmore
      omega
    have hprograms : i < w.programs.length := h.paired.length ▸ hi
    refine work_lt_of_workAt (i := i) rfl ?_ hprograms ?_
    · intro j
      rw [workAt, workAt]
      cases w.programs[j]? with
      | none => exact le_rfl
      | some q => exact (hlink j q).1
    · rw [workAt, workAt, List.getElem?_eq_getElem hprograms]
      exact (hlink i _).2 rfl

/-- The system takes no step by itself. -/
def Quiet (connectionFd : ℕ) (w : World) : Prop :=
  ∀ e, Own w e → ∃ why, worldStep connectionFd w e = .error why

/-- Why a program does not show what is there: it has ended, it waits for the rest of a line, or a
line that was typed does not fit its arrays. -/
inductive HeldUp (connectionFd : ℕ) (q : Program) : Prop
  | ended (phase : q.console.phase = .exited)
  | line (phase : q.console.phase = .reading) (kernel : q.console.kernel = [])
  | failed {n : ℕ} {fault : Fault} (typing : q.console.phase = .reading ∨ q.receiving = false)
      (fails : q.turn connectionFd n = .error (.failed fault))

private theorem turn_of_quiet (h : Quiet connectionFd w) (hl : w.net.links[i]? = some l)
    (hq : w.programs[i]? = some q) (hown : OwnTurn t) (hpossible : Possible w.net.sys l q t) :
    ∃ why, programStep connectionFd q t = .error why := by
  cases hs : programStep connectionFd q t with
  | error why => exact ⟨why, rfl⟩
  | ok a =>
    obtain ⟨why, hwhy⟩ := h (.program i t) hown
    simp only [worldStep, hl, hq, hpossible, if_true, hs] at hwhy
    cases hwhy

/-- At rest everything in the stream has arrived. -/
theorem arrived_of_quiet (h : Sound k w) (hquiet : Quiet connectionFd w)
    (hl : w.net.links[i]? = some l) (hq : w.programs[i]? = some q) :
    q.socket.unread = l.toClient := by
  cases hended : q.socket.ended with
  | true => exact (h.gone i l q hl hq hended).1
  | false =>
    obtain ⟨rest, hrest⟩ := (h.paired.pairs i l q hl hq).arrived
    by_cases hnil : rest = []
    · rw [← hrest, hnil, List.append_nil]
    · have hpossible : Possible w.net.sys l q (.arrival (.segment (.data rest))) :=
        ⟨[], by rw [List.append_nil, hrest]⟩
      have hown : OwnTurn (.arrival (.segment (.data rest))) := hnil
      obtain ⟨why, hwhy⟩ := turn_of_quiet hquiet hl hq hown hpossible
      rw [programStep, Program.arrive, ServiceLoop.Socket.push, hended] at hwhy
      cases hwhy

private theorem post_fits (p : Post) : p.packet.bytes.length ≤ maxLen := by
  rw [Packet.length_bytes]
  cases p with
  | refusal => decide
  | farewell => decide
  | notice src data heap known =>
    have hle := length_sentValue_le ((received_front data).2 ▸ known)
    change sizeofTcpHdr + (framePayload (received data) heap src).length ≤ maxLen
    rw [length_framePayload, sizeofTcpHdr, maxLen]
    omega

/-- Only a typed line fails, for what is received was posted. -/
theorem typing_of_failed {posts : List Post} {n : ℕ} {fault : Fault}
    (hunread : q.socket.unread = posts.flatMap Post.bytes)
    (h : q.turn connectionFd n = .error (.failed fault)) :
    q.console.phase = .reading ∨ q.receiving = false := by
  cases hphase : q.console.phase with
  | reading => exact .inl rfl
  | exited =>
    simp only [Program.turn, hphase] at h
    cases h
  | polling =>
    cases hbusy : q.receiving with
    | false => exact .inr rfl
    | true =>
      exfalso
      simp only [Program.turn, hphase, hbusy, if_true, Program.receive] at h
      cases posts with
      | nil =>
        rw [hunread] at h
        cases h
      | cons p posts =>
        have hfront : frontPacket q.socket.unread = some (p.packet, posts.flatMap Post.bytes) := by
          rw [hunread]
          exact frontPacket_append _ _
        simp only [hfront, post_fits, if_true, branch_of_store, Except.mapError, ok_bind] at h
        cases h

/-- At rest a program that is not held up has received the whole stream. -/
theorem stream_of_quiet (h : Sound k w) (hquiet : Quiet connectionFd w)
    (hl : w.net.links[i]? = some l) (hq : w.programs[i]? = some q) {posts : List Post}
    (hposts : l.toClient = posts.flatMap Post.bytes) : HeldUp connectionFd q ∨ posts = [] := by
  have hunread := (arrived_of_quiet h hquiet hl hq).trans hposts
  have hnil (hempty : frontPacket q.socket.unread = none) : posts = [] := by
    cases posts with
    | nil => rfl
    | cons p posts =>
      have hfront := frontPacket_append p.packet (posts.flatMap Post.bytes)
      rw [hunread, List.flatMap_cons, Post.bytes, hfront] at hempty
      cases hempty
  have hstuck : SubscriberLoop.Settled connectionFd q :=
    SubscriberLoop.settled_of_stuck fun n => turn_of_quiet (t := .program n) hquiet hl hq trivial
      trivial
  cases hstuck with
  | finished phase => exact .inl (.ended phase)
  | line phase kernel => exact .inl (.line phase kernel)
  | idle phase free kernel unread ended =>
    rw [unread] at hnil
    exact .inr (hnil rfl)
  | packet phase busy unfinished short => exact .inr (hnil unfinished)
  | failed fails => exact .inl (.failed (typing_of_failed hunread fails) fails)

private theorem sound_of_run {events : List WorldEvent} {reports : List WorldReport} (h : Sound k w)
    (hc : EachStep (worldStep connectionFd) AttributedTo w events)
    (hr : run (worldStep connectionFd) w events = .ok (w', reports)) : Sound k w' :=
  invariant_of_eachStep (fun _ _ _ _ h hc hs => sound_step h hc (steps_of_worldStep hs)) h hc hr

/-- From every state of a run in which each request is resolved to its sender the system comes to
rest by itself, after at most as many steps as there is work; and wherever it comes to rest, each
program has shown all that was posted to it, in order, or has ended, or waits for the rest of a
line, or fails on a line. -/
theorem eventually_shown {events : List WorldEvent} {reports : List WorldReport}
    (hc : EachStep (worldStep connectionFd) AttributedTo (begin k) events)
    (hr : run (worldStep connectionFd) (begin k) events = .ok (w, reports)) :
    (∀ more reports' w', EachStep (worldStep connectionFd) Own w more →
      run (worldStep connectionFd) w more = .ok (w', reports') → more.length ≤ work w ∧
        (Quiet connectionFd w' → ∀ i q, w'.programs[i]? = some q → HeldUp connectionFd q ∨
          (((events ++ more).zip (reports ++ reports')).flatMap (receivedBy i)).map Prod.snd =
            (inbox i (follow hubStep Broker.empty
              (netRun ((events ++ more).zip (reports ++ reports')))).2).map
                (reactionTo connectionFd))) ∧
    ∃ more reports' w', EachStep (worldStep connectionFd) Own w more ∧
      run (worldStep connectionFd) w more = .ok (w', reports') ∧ Quiet connectionFd w' := by
  have hsound := sound_of_run (sound_begin k) hc hr
  have hstep : ∀ w e w' o, Sound k w → Own w e → worldStep connectionFd w e = .ok (w', o) →
      Sound k w' ∧ work w' < work w := by
    intro w e w' o h hown hs
    have hsteps := steps_of_worldStep hs
    exact ⟨sound_step h (attributedTo_of_own hown) hsteps, work_lt h hown hsteps⟩
  refine ⟨?_, ?_⟩
  · intro more reports' w' hown hr'
    refine ⟨Nat.le_of_add_right_le (length_le_of_decreasing hstep hsound hown hr'), ?_⟩
    intro hquiet i q hq
    have hmore := eachStep_mono (fun _ _ => attributedTo_of_own) hown
    have hsound' := sound_of_run hsound hmore hr'
    obtain ⟨shown, pending, hposts, hshown, hrest⟩ :=
      shown_of_run (eachStep_append hr hc hmore) (run_append hr hr') i
    obtain ⟨hlt, -⟩ := List.getElem?_eq_some_iff.mp hq
    have hl := List.getElem?_eq_getElem (hsound'.paired.length ▸ hlt)
    rw [stream, hl] at hrest
    rcases stream_of_quiet hsound' hquiet hl hq hrest with hheld | rfl
    · exact .inl hheld
    · right
      rw [hshown, hposts, List.append_nil]
  · obtain ⟨more, reports', w', hown, hr', -, hquiet⟩ := exists_run_to_end hstep hsound
    exact ⟨more, reports', w', hown, hr', hquiet⟩

/-- The notice is on its way to `A`, who has typed half of an `exit`. -/
theorem eventually_shown_session : ∃ w reports,
    run (worldStep 3) (begin sampleSockets) (session.take 10) = .ok (w, reports) ∧
    ∃ more reports' w', EachStep (worldStep 3) Own w more ∧
      run (worldStep 3) w more = .ok (w', reports') ∧ Quiet 3 w' := by
  have hrun : completesIn (worldStep 3) (fun _ _ => true) (begin sampleSockets)
      (session.take 10) = true := by decide +kernel
  obtain ⟨w, reports, hr, -⟩ := exists_run_of_completesIn hrun
  exact ⟨w, reports, hr, (eventually_shown (by decide +kernel) hr).2⟩

end MessageBroker.EventualDelivery
