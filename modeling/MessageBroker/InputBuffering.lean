import MessageBroker.KeyboardInput

/-!
# Lines between the kernel and the loop

`run_subscriber` polls the descriptor of standard input and reads it through `stdio`. What one
`read` returns beyond the first line stays in the buffer of the stream, where `poll` does not
look.
-/
namespace MessageBroker.InputBuffering
open ByteStrings WireFormat StandardInput CommandLine KeyboardInput TransitionRuns

/-- Where the process waits: in `poll`, or in a `read` that `fgets` has made. -/
inductive Phase
  | polling
  | reading
  | exited
  deriving DecidableEq

/-- `stdio` are the bytes that were read and that no `fgets` has returned; `arrived` is the whole
input so far and `acted` are the lines `parse_stdin_command` has acted on. -/
structure Console where
  kernel : Bytes
  stdio : Bytes
  phase : Phase
  arrived : Bytes
  acted : List Bytes

/-- Bytes arrive at any time; `poll` returns for standard input, or for the connection if there is
nothing on standard input; a `read` returns with the first `n` bytes the kernel has. -/
inductive Event
  | typed (bs : Bytes)
  | stdinReady
  | readReturns (n : ℕ)
  | packet (action : UInt8)

inductive Halt
  | fault (f : Fault)
  | impossible

/-- `fgets` can return without another `read`. -/
def Complete (held : Bytes) : Prop := newline ∈ held ∨ maxLine - 1 ≤ held.length

instance (held : Bytes) : Decidable (Complete held) := by
  unfold Complete
  infer_instance

/-- `parse_stdin_command` with the bytes the stream holds: it returns to `poll`, or it waits for
more of the line. -/
def serve (connectionFd : ℕ) (s : Console) (held : Bytes) :
    Except Halt (Console × Option Reaction) :=
  if Complete held then do
    let chunk := nextChunk held
    let reaction ←
      (parseChunk connectionFd (fun _ => 0) (fun _ => 0) (some chunk)).mapError .fault
    .ok ({ s with
      stdio := held.drop chunk.length
      phase := if reaction.exits then .exited else .polling
      acted := s.acted ++ [chunk] }, some reaction)
  else .ok ({ s with stdio := held, phase := .reading }, none)

def step (connectionFd : ℕ) : Transition Console Event (Option Reaction) Halt
  | s, .typed bs => .ok ({ s with kernel := s.kernel ++ bs, arrived := s.arrived ++ bs }, none)
  | s, .stdinReady =>
    if s.phase = .polling ∧ s.kernel ≠ [] then serve connectionFd s s.stdio
    else .error .impossible
  | s, .readReturns n =>
    if s.phase = .reading ∧ 1 ≤ n ∧ n ≤ s.kernel.length then
      serve connectionFd { s with kernel := s.kernel.drop n } (s.stdio ++ s.kernel.take n)
    else .error .impossible
  | s, .packet action =>
    if s.phase = .polling ∧ s.kernel = [] then
      .ok ({ s with phase := if action = shutdownIntruder ∨ action = shutdownClose then .exited
        else .polling }, none)
    else .error .impossible

def start : Console := ⟨[], [], .polling, [], []⟩

/-- At a call of `poll` the stream holds no end of a line, and when the call blocks all lines that
have arrived were acted on. -/
def Prompt (s : Console) : Prop :=
  s.phase = .polling → newline ∉ s.stdio ∧
    (s.kernel = [] → ∃ unfinished, newline ∉ unfinished ∧
      s.arrived = s.acted.flatten ++ unfinished)

/-- A `read` returns at most one end of a line, the line fits `fgets`, or it is an `exit`. -/
def OneLine (s : Console) : Event → Prop
  | .readReturns n =>
    ((s.kernel.take n).count newline ≤ 1 ∧
      newline ∉ (s.stdio ++ s.kernel.take n).drop (maxLine - 1)) ∨
    exitWord <+: s.stdio ++ s.kernel.take n ∧ (s.stdio ++ s.kernel.take n).getD 4 0 ≠ 0
  | _ => True

instance (s : Console) : (e : Event) → Decidable (OneLine s e)
  | .readReturns _ => inferInstanceAs (Decidable (_ ∨ _))
  | .typed _ | .stdinReady | .packet _ => isTrue trivial

/-- The character that is cut is the one behind the keyword, or a later one. -/
theorem exit_prefix_iff (held : Bytes) :
    exitWord <+: command (nextChunk held) ↔ exitWord <+: held ∧ held.getD 4 0 ≠ 0 := by
  constructor
  · intro h
    have htext : untilNul (nextChunk held) <+: held :=
      (List.takeWhile_prefix _).trans (takeLine_front _ held)
    have hlong : 4 < (untilNul (nextChunk held)).length := by
      have hle : 4 ≤ (command (nextChunk held)).length := h.length_le
      rw [command, List.length_dropLast] at hle
      omega
    refine ⟨(h.trans (List.dropLast_prefix _)).trans htext, ?_⟩
    obtain ⟨rest, hrest⟩ := htext
    have hget : held.getD 4 0 = (untilNul (nextChunk held))[4] := by
      conv_lhs => rw [← hrest]
      rw [List.getD_eq_getElem?_getD, List.getElem?_append_left hlong,
        List.getElem?_eq_getElem hlong, Option.getD_some]
    rw [hget]
    intro hzero
    exact zero_notMem_untilNul _ (hzero ▸ List.getElem_mem hlong)
  · rintro ⟨⟨r, hr⟩, hfifth⟩
    subst hr
    cases r with
    | nil => exact absurd rfl hfifth
    | cons b r =>
      have hb : b ≠ 0 := hfifth
      obtain ⟨t, ht⟩ := exists_takeLine_cons 250 b r
      have hchunk : nextChunk (exitWord ++ b :: r) = exitWord ++ b :: t := by
        have htake := takeLine_append_of_notMem (b :: r) (show newline ∉ exitWord by decide)
          (show exitWord.length ≤ maxLine - 1 by decide)
        exact htake.trans (congrArg _ ht)
      have htext : untilNul (exitWord ++ b :: t) = exitWord ++ b :: untilNul t := by
        have hword : ∀ c ∈ exitWord, decide (c ≠ 0) = true := by decide +kernel
        rw [untilNul, List.takeWhile_append_of_pos hword, List.takeWhile_cons_of_pos (by simpa)]
        rfl
      rw [hchunk, command, htext, List.dropLast_append_of_ne_nil (List.cons_ne_nil _ _)]
      exact List.prefix_append _ _

/-- With a complete line the call ends the process at an `exit`, and keeps what is behind the line
otherwise. -/
theorem serve_complete {connectionFd : ℕ} {s s' : Console} {held : Bytes} {o : Option Reaction}
    (hc : Complete held) (h : serve connectionFd s held = .ok (s', o)) :
    s'.stdio = held.drop (nextChunk held).length ∧ s'.kernel = s.kernel ∧
      s'.arrived = s.arrived ∧ s'.acted = s.acted ++ [nextChunk held] ∧ s'.phase ≠ .reading ∧
      (s'.phase = .exited ↔ exitWord <+: held ∧ held.getD 4 0 ≠ 0) := by
  have hlen := length_nextChunk_lt held
  rw [serve, if_pos hc] at h
  dsimp only at h
  by_cases hempty : untilNul (nextChunk held) = []
  · rw [parseChunk_empty connectionFd _ hlen hempty] at h
    cases h
  · rw [parseChunk_reply connectionFd hlen hempty] at h
    rcases reply_cases connectionFd (command (nextChunk held)) with
      ⟨reaction, hok, hexits, -⟩ | ⟨herror, -⟩
    · rw [hok] at h
      cases h
      rw [exit_prefix_iff] at hexits
      refine ⟨rfl, rfl, rfl, rfl, ?_, ?_⟩
      · dsimp only
        split_ifs <;> simp
      · rw [← hexits]
        dsimp only
        split_ifs with he <;> simp [he]
    · rw [herror] at h
      cases h

/-- Without one it waits with all it holds. -/
theorem serve_incomplete {connectionFd : ℕ} {s : Console} {held : Bytes} (hc : ¬ Complete held) :
    serve connectionFd s held = .ok ({ s with stdio := held, phase := .reading }, none) := by
  rw [serve, if_neg hc]

/-- A call is answered as if all that is still to come were in the stream already. -/
theorem stdinBranch_of_serve {connectionFd : ℕ} {s s' : Console} {held : Bytes}
    {reaction : Reaction} (hc : Complete held)
    (h : serve connectionFd s held = .ok (s', some reaction)) (more : Bytes) :
    stdinBranch connectionFd (held ++ more) = .ok (reaction, s'.stdio ++ more) := by
  have hchunk : nextChunk (held ++ more) = nextChunk held := takeLine_append_of_complete more hc
  have hle : (nextChunk held).length ≤ held.length := (takeLine_front _ held).length_le
  rw [serve, if_pos hc] at h
  dsimp only at h
  by_cases hempty : untilNul (nextChunk held) = []
  · rw [parseChunk_empty connectionFd _ (length_nextChunk_lt held) hempty] at h
    cases h
  · rw [parseChunk_reply connectionFd (length_nextChunk_lt held) hempty] at h
    rw [stdinBranch_eq connectionFd (by rwa [hchunk]), hchunk, List.drop_append_of_le_length hle]
    cases hreply : reply connectionFd (command (nextChunk held)) with
    | ok r =>
      rw [hreply] at h
      cases h
      rfl
    | error e =>
      rw [hreply] at h
      cases h

/-- While the process waits in a `read` the stream holds the front of a line, and what has arrived
was acted on, is held or is in the kernel. -/
structure Sound (s : Console) : Prop where
  waits : s.phase = .reading → ¬ Complete s.stdio
  accounted : s.arrived = s.acted.flatten ++ (s.stdio ++ s.kernel)

variable {connectionFd : ℕ} {s s' : Console} {o : Option Reaction}

theorem Sound.prompt_iff (hs : Sound s) : Prompt s ↔ (s.phase = .polling → newline ∉ s.stdio) := by
  refine forall_congr' fun _ => and_iff_left_of_imp ?_
  intro hnone hkernel
  refine ⟨s.stdio, hnone, ?_⟩
  rw [hs.accounted, hkernel, List.append_nil]

private theorem sound_serve {held : Bytes} (ha : s.arrived = s.acted.flatten ++ (held ++ s.kernel))
    (h : serve connectionFd s held = .ok (s', o)) : Sound s' := by
  by_cases hc : Complete held
  · obtain ⟨hstdio, hkernel, harrived, hacted, hreading, -⟩ := serve_complete hc h
    refine ⟨fun hr => absurd hr hreading, ?_⟩
    rw [hstdio, hkernel, harrived, hacted, ha, List.flatten_append, List.flatten_singleton,
      List.append_assoc, ← List.append_assoc (nextChunk held)]
    rw [show nextChunk held ++ held.drop (nextChunk held).length = held from
      takeLine_append_drop _ held]
  · rw [serve_incomplete hc] at h
    cases h
    exact ⟨fun _ => hc, ha⟩

private theorem sound_step {e : Event} (hs : Sound s) (h : step connectionFd s e = .ok (s', o)) :
    Sound s' := by
  cases e with
  | typed bs =>
    cases h
    refine ⟨hs.waits, ?_⟩
    dsimp only
    rw [hs.accounted, List.append_assoc, List.append_assoc]
  | stdinReady =>
    rw [step] at h
    split_ifs at h
    exact sound_serve hs.accounted h
  | readReturns n =>
    rw [step] at h
    split_ifs at h
    refine sound_serve ?_ h
    dsimp only
    rw [hs.accounted, List.append_assoc, List.take_append_drop]
  | packet action =>
    rw [step] at h
    split_ifs at h with hready hshutdown
    · cases h
      exact ⟨(fun hreading => by cases hreading), hs.accounted⟩
    · cases h
      exact ⟨(fun hreading => by cases hreading), hs.accounted⟩

/-- What a call leaves in the stream when it returns to `poll`. -/
theorem prompt_serve {held : Bytes} (h : serve connectionFd s held = .ok (s', o)) :
    (s'.phase = .polling → newline ∉ s'.stdio) ↔
      (held.count newline ≤ 1 ∧ newline ∉ held.drop (maxLine - 1)) ∨
        exitWord <+: held ∧ held.getD 4 0 ≠ 0 := by
  by_cases hc : Complete held
  · obtain ⟨hstdio, -, -, -, hreading, hexited⟩ := serve_complete hc h
    rw [← hexited, ← newline_notMem_drop_takeLine, hstdio, ← nextChunk]
    cases hphase : s'.phase with
    | polling => simp
    | reading => exact absurd hphase hreading
    | exited => simp
  · rw [serve_incomplete hc] at h
    cases h
    obtain ⟨hnone, hshort⟩ := not_or.mp hc
    refine iff_of_true (fun hpolling => by cases hpolling) (.inl ⟨?_, ?_⟩)
    · exact (List.count_eq_zero.mpr hnone).le.trans (Nat.zero_le 1)
    · exact fun hmem => hnone (List.mem_of_mem_drop hmem)

/-- From a state with no line in the stream a step keeps it so exactly if it reads one line. -/
theorem prompt_step {e : Event} (hs : Sound s) (hp : Prompt s)
    (h : step connectionFd s e = .ok (s', o)) : Prompt s' ↔ OneLine s e := by
  rw [(sound_step hs h).prompt_iff]
  cases e with
  | typed bs =>
    cases h
    exact iff_of_true (fun hpolling => (hp hpolling).1) trivial
  | stdinReady =>
    rw [step] at h
    split_ifs at h with hready
    have hnone := (hp hready.1).1
    rw [prompt_serve h]
    refine iff_of_true (.inl ⟨?_, ?_⟩) trivial
    · exact (List.count_eq_zero.mpr hnone).le.trans (Nat.zero_le 1)
    · exact fun hmem => hnone (List.mem_of_mem_drop hmem)
  | readReturns n =>
    rw [step] at h
    split_ifs at h with hreads
    have hnone : newline ∉ s.stdio := fun hmem => hs.waits hreads.1 (.inl hmem)
    rw [prompt_serve h, OneLine, List.count_append, List.count_eq_zero.mpr hnone, Nat.zero_add]
  | packet action =>
    rw [step] at h
    split_ifs at h with hready hshutdown
    · cases h
      exact iff_of_true (fun _ => (hp hready.1).1) trivial
    · cases h
      exact iff_of_true (fun _ => (hp hready.1).1) trivial

private theorem sound_start : Sound start := ⟨(fun hreading => by cases hreading), rfl⟩

/-- No line waits in the stream at a call of `poll`, exactly as long as every `read` returns at
most one. -/
theorem prompt_throughout_iff {es : List Event} {os : List (Option Reaction)}
    (hr : run (step connectionFd) start es = .ok (s', os)) :
    Throughout (step connectionFd) Prompt start es ↔
      EachStep (step connectionFd) OneLine start es := by
  have hstart : Prompt start := sound_start.prompt_iff.mpr (fun _ => List.not_mem_nil)
  exact throughout_iff_eachStep (fun _ _ _ _ hs h => sound_step hs h)
    (fun _ _ _ _ hs hp h => prompt_step hs hp h) hr sound_start hstart

/-- Two commands that are typed one at a time, the second in two parts. -/
theorem prompt_throughout_typed : Throughout (step 3) Prompt start
    [.typed (ascii "subscribe a\n"), .stdinReady, .readReturns 12, .packet notificationAction,
      .typed (ascii "ex"), .stdinReady, .readReturns 2, .typed (ascii "it\n"), .readReturns 3] := by
  have hcompletes : completesIn (step 3) (fun s _ => decide (s.phase = .exited)) start
    [.typed (ascii "subscribe a\n"), .stdinReady, .readReturns 12, .packet notificationAction,
      .typed (ascii "ex"), .stdinReady, .readReturns 2, .typed (ascii "it\n"), .readReturns 3] =
        true := by decide +kernel
  obtain ⟨s', os, hr, -⟩ := exists_run_of_completesIn hcompletes
  exact (prompt_throughout_iff hr).mpr (by decide +kernel)

/-- Two lines that arrive together: the second is left in the stream. -/
theorem prompt_fails : ∃ s' os, run (step 3) start
    [.typed (ascii "subscribe a\nsubscribe b\n"), .stdinReady, .readReturns 24] = .ok (s', os) ∧
      ¬ Prompt s' := by
  have hcompletes : completesIn (step 3)
      (fun s _ => decide (s.phase = .polling ∧ newline ∈ s.stdio)) start
      [.typed (ascii "subscribe a\nsubscribe b\n"), .stdinReady, .readReturns 24] = true := by
    decide +kernel
  obtain ⟨s', os, hr, htest⟩ := exists_run_of_completesIn hcompletes
  obtain ⟨hpolling, hline⟩ := of_decide_eq_true htest
  exact ⟨s', os, hr, fun h => (h hpolling).1 hline⟩

end MessageBroker.InputBuffering
