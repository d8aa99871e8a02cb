import MessageBroker.SubscriberOutput

/-!
# What is said on a connection

A connection is sent a refusal and nothing else, or it is sent notifications and, when the
server exits, a farewell behind all of them, unless a peer in front of it has reset.
-/
namespace MessageBroker.Conversations
open ByteStrings WireFormat ServerStops ServerHandlers ServerRuns TransitionRuns ClientTable
open DescriptorLifetimes PublishSubscribe BrokerRefinement ClientLinks OrderlyExit StreamDelivery
open SubscriberOutput BrokenPipes

def IsNotice : Post → Prop
  | .notice _ _ _ _ => True
  | .refusal => False
  | .farewell => False

/-- What has been posted to a link, as its end has it. -/
inductive Said : ServerEnd → List Post → Prop
  | pending : Said .pending []
  | refused (fd : ℕ) : Said (.refused fd) [.refusal]
  | admitted (c : Connection) {posts : List Post} (notices : ∀ q ∈ posts, IsNotice q) :
      Said (.admitted c) posts

variable {k : Sockets} {n n' : Net} {b : ClientBroker} {events : List NetEvent}
  {effects : List (List Effect)} {i connectionFd : ℕ}

theorem Said.extend {e e' : ServerEnd} {posts new : List Post} (h : Said e posts)
    (hs : Says e new e') : Said e' (posts ++ new) := by
  cases hs with
  | nothing => exact (List.append_nil posts).symm ▸ h
  | admits c =>
    cases h with
    | pending => exact .admitted c (by simp)
  | refuses fd =>
    cases h with
    | pending => exact .refused fd
  | notifies c src data heap known =>
    cases h with
    | admitted _ notices =>
      apply Said.admitted
      intro q hq
      rcases List.mem_append.mp hq with hq | hq
      · exact notices q hq
      · rw [List.mem_singleton.mp hq]
        trivial

private theorem said_run (h : Delivers k n b) {posts : List Post}
    (hsaid : Said (serverEnd n.links i) posts)
    (hc : EachStep netStep Attributed n events) (hr : run netStep n events = .ok (n', effects)) :
    Delivers k n' (follow hubStep b events).1 ∧
      Said (serverEnd n'.links i) (posts ++ inbox i (follow hubStep b events).2) := by
  induction events generalizing n b posts effects with
  | nil =>
    obtain ⟨rfl, -⟩ : n = n' ∧ [] = effects := by simpa [run] using hr
    exact ⟨h, (List.append_nil posts).symm ▸ hsaid⟩
  | cons e events ih =>
    obtain ⟨n₁, fx, effects', hs, hr', -⟩ := run_cons.mp hr
    have hpasses := passes_step h hc.1 hs
    have hrest := ih hpasses.delivers (hsaid.extend (hpasses.turn i)) (hc.2 n₁ fx hs) hr'
    rw [List.append_assoc] at hrest
    exact hrest

/-- The network when `shutdown_server` has come to its end or to a peer that has reset. -/
def shutDown (reset : List ℕ) (n : Net) : Net :=
  ⟨n.sys, n.links.map (Link.deliver n.sys (carriedOut reset n.sys.server.shutdownServer.2))⟩

/-- The connections in the table are told up to the first whose peer has reset. -/
def farewells (reset : List ℕ) (s : Sys) : ServerEnd → List Post
  | .admitted c => if c ∈ (inTable s).takeWhile (·.fd ∉ reset) then [.farewell] else []
  | .pending => []
  | .refused _ => []

/-- The farewells go to the connections in the table. -/
theorem stream_shutDown (h : Delivers k n b) (reset : List ℕ) (i : ℕ) :
    stream (shutDown reset n) i =
      stream n i ++ (farewells reset n.sys (serverEnd n.links i)).flatMap Post.bytes := by
  let told : List ℕ := (clientFds n.sys.server).takeWhile (· ∉ reset)
  have hsub : told <+: clientFds n.sys.server := List.takeWhile_prefix _
  have hnodup : told.Nodup :=
    (h.inv.clientFds_eq ▸ h.inv.liveFds : (clientFds n.sys.server).Nodup).sublist hsub.sublist
  have htold : told = ((inTable n.sys).takeWhile (·.fd ∉ reset)).map Connection.fd := by
    rw [inTable_eq h.inv]
    change (clientFds n.sys.server).takeWhile (· ∉ reset) = _
    rw [h.inv.clientFds_eq, List.takeWhile_map]
    rfl
  have hclient {fd : ℕ} (hfd : fd ∈ told) : ∃ c ∈ n.sys.live, c.fd = fd := by
    have hmem := hsub.subset hfd
    rw [h.inv.clientFds_eq] at hmem
    exact List.mem_map.mp hmem
  rw [shutDown, stream_deliver, arriving_notices hnodup (sends_carriedOut h.inv reset)]
  congr 1
  cases hend : serverEnd n.links i with
  | pending =>
    rw [if_neg]
    · rfl
    · rintro ⟨fd, -, hfd⟩
      rcases serverEnd_of_serverFd hfd with hrefused | ⟨c, -, hc, -⟩
      · rw [hend] at hrefused
        cases hrefused
      · rw [hend] at hc
        cases hc
  | refused fd =>
    rw [if_neg]
    · rfl
    · rintro ⟨fd', hin, hfd⟩
      obtain ⟨d, hd, hdfd⟩ := hclient hin
      rcases serverEnd_of_serverFd hfd with hrefused | ⟨c, -, hc, -⟩
      · exact (h.refused i fd' hrefused).2 d hd hdfd
      · rw [hend] at hc
        cases hc
  | admitted c =>
    rw [farewells]
    by_cases hin : c ∈ (inTable n.sys).takeWhile (·.fd ∉ reset)
    · have hfd : c.fd ∈ told := htold ▸ List.mem_map_of_mem hin
      have htable : c ∈ inTable n.sys := (List.takeWhile_prefix _).subset hin
      rw [if_pos ⟨c.fd, hfd, serverFd_of_admitted hend htable⟩, if_pos hin]
      exact (List.flatMap_singleton _ _).symm
    · rw [if_neg, if_neg hin]
      · rfl
      · rintro ⟨fd, htoldfd, hfd⟩
        rcases serverEnd_of_serverFd hfd with hrefused | ⟨d, hd, hdend, rfl⟩
        · rw [hend] at hrefused
          cases hrefused
        · rw [hend] at hdend
          cases hdend
          rw [htold] at htoldfd
          obtain ⟨e, he, hefd⟩ := List.mem_map.mp htoldfd
          have hetable := (List.takeWhile_prefix _).subset he
          rw [inTable_eq h.inv] at hd hetable
          obtain rfl := List.inj_on_of_nodup_map h.inv.liveFds hetable hd hefd
          exact hin he

private theorem reads_post (connectionFd : ℕ) (q : Post) (rest : Bytes) :
    Reads connectionFd (q.bytes ++ rest) [reactionTo connectionFd q] rest := by
  obtain ⟨ret, m, hr⟩ := PacketReceipt.exists_receives q.packet rest (fun _ => 0)
  have hbranch := (branch_of_post connectionFd hr).2
  cases hends : (reactionTo connectionFd q).exits with
  | true => exact .exits hr hbranch hends
  | false => exact .goesOn hr hbranch hends (.waits rest)

private theorem reads_notices {posts : List Post} (h : ∀ q ∈ posts, IsNotice q)
    {stream rest : Bytes}
    {reactions : List CommandLine.Reaction} (hrest : Reads connectionFd stream reactions rest) :
    Reads connectionFd (posts.flatMap Post.bytes ++ stream)
      (posts.map (reactionTo connectionFd) ++ reactions) rest := by
  induction posts with
  | nil => exact hrest
  | cons q posts ih =>
    obtain ⟨hq, hposts⟩ := List.forall_mem_cons.mp h
    have hends : (reactionTo connectionFd q).exits = false := by
      cases q with
      | notice src data heap known => rfl
      | refusal => exact hq.elim
      | farewell => exact hq.elim
    obtain ⟨ret, m, hr⟩ := PacketReceipt.exists_receives q.packet
      (posts.flatMap Post.bytes ++ stream) (fun _ => 0)
    rw [List.flatMap_cons, List.append_assoc]
    exact .goesOn hr (branch_of_post connectionFd hr).2 hends (ih hposts)

/-- What has been said, with a farewell behind it or not, can be read to its end. -/
theorem reads_said {s : Sys} {e : ServerEnd} {posts : List Post} (reset : List ℕ)
    (h : Said e posts) :
    Reads connectionFd ((posts ++ farewells reset s e).flatMap Post.bytes)
      ((posts ++ farewells reset s e).map (reactionTo connectionFd)) [] := by
  have hone (q : Post) : Reads connectionFd ([q].flatMap Post.bytes)
      ([q].map (reactionTo connectionFd)) [] := by
    have hq := reads_post connectionFd q []
    rw [List.append_nil] at hq
    rw [List.flatMap_singleton]
    exact hq
  cases h with
  | pending => exact .waits []
  | refused fd => exact hone .refusal
  | admitted c notices =>
    rw [List.flatMap_append, List.map_append, farewells]
    apply reads_notices notices
    split_ifs
    · exact hone .farewell
    · exact .waits []

/-- In a run in which each request is resolved to its sender, a link was sent nothing before it was
accepted, a refusal and nothing else, or notices; and when the server then exits, a subscriber in
the table reads all of them, a farewell behind them if the exit comes as far as that, and nothing
else. -/
theorem farewell_behind_notices (hc : EachStep netStep Attributed (begin k) events)
    (hr : run netStep (begin k) events = .ok (n, effects)) (reset : List ℕ)
    (connectionFd i : ℕ) :
    Said (serverEnd n.links i) (inbox i (follow hubStep Broker.empty events).2) ∧
    Reads connectionFd (sentTo i events (shutDown reset n))
      ((inbox i (follow hubStep Broker.empty events).2 ++
        farewells reset n.sys (serverEnd n.links i)).map (reactionTo connectionFd)) [] ∧
    ∀ reactions rest, Reads connectionFd (sentTo i events (shutDown reset n)) reactions rest →
      reactions <+: (inbox i (follow hubStep Broker.empty events).2 ++
        farewells reset n.sys (serverEnd n.links i)).map (reactionTo connectionFd) := by
  have hstart : Said (serverEnd (begin k).links i) [] := Said.pending
  obtain ⟨h, hsaid⟩ := said_run (delivers_begin k) hstart hc hr
  rw [List.nil_append] at hsaid
  have hsent : sentTo i events (shutDown reset n) =
      (inbox i (follow hubStep Broker.empty events).2 ++
        farewells reset n.sys (serverEnd n.links i)).flatMap Post.bytes := by
    rw [sentTo, stream_shutDown h reset, ← List.append_assoc, sent_eq_posted hc hr i,
      List.flatMap_append]
  refine ⟨hsaid, hsent ▸ reads_said reset hsaid, ?_⟩
  rw [hsent]
  intro reactions rest hreads
  obtain ⟨shown, pending, hposts, rfl, -⟩ := reads_posts hreads
  rw [hposts, List.map_append]
  exact List.prefix_append _ _

theorem farewell_behind_notices_session : ∃ n effects,
    run netStep (begin sampleSockets) session = .ok (n, effects) ∧
    (∃ c ∈ inTable n.sys, serverEnd n.links 0 = .admitted c) ∧
    Reads 3 (sentTo 0 session (shutDown [] n))
      ((inbox 0 (follow hubStep Broker.empty session).2 ++
        farewells [] n.sys (serverEnd n.links 0)).map (reactionTo 3)) [] := by
  have hrun : completesIn netStep (fun n _ => ∃ c ∈ inTable n.sys,
      serverEnd n.links 0 = .admitted c) (begin sampleSockets) session = true := by
    decide +kernel
  obtain ⟨n, effects, hr, ht⟩ := exists_run_of_completesIn hrun
  exact ⟨n, effects, hr, of_decide_eq_true ht,
    (farewell_behind_notices (by decide +kernel) hr [] 3 0).2.1⟩

end MessageBroker.Conversations
