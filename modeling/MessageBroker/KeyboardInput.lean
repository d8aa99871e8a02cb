import MessageBroker.CommandLine

/-!
# The arrays behind the command line

For which input the stores of `parse_stdin_command` and of the two requests stay inside `buff`
and `topic`: for one call, and for the calls up to the first `exit`.
-/
namespace MessageBroker.KeyboardInput
open ByteStrings WireFormat ServerStops StandardInput CommandLine TransitionRuns

/-- A store behind the end of an array or in front of its start. -/
def Outside (e : Fault) : Prop := e = .outsideTopic ∨ e = .stop .outsideBuff

def StaysInside {α : Type} (result : Except Fault α) : Prop := ∀ e, result = .error e → ¬ Outside e

/-- A topic behind a keyword at the front has at most `50` bytes. -/
def TopicFits (s : Bytes) : Prop :=
  ∀ keyword ∈ [subscribeWord, unsubscribeWord], keyword <+: s →
    (word (s.drop (keyword.length + 1))).length ≤ 50

/-- The call reads a line, it does not start with a NUL, and its topic fits. -/
def Fits (stdin : Bytes) : Prop :=
  untilNul (nextChunk stdin) ≠ [] ∧ TopicFits (command (nextChunk stdin))

instance (stdin : Bytes) : Decidable (Fits stdin) := by
  unfold Fits TopicFits
  infer_instance

/-- `n` turns of the loop that take the branch of standard input, or those up to `exit`. -/
def turns (connectionFd : ℕ) : ℕ → Bytes → Except Fault (List Reaction)
  | 0, _ => .ok []
  | n + 1, stdin => do
    let (reaction, rest) ← stdinBranch connectionFd stdin
    if reaction.exits then .ok [reaction]
    else
      let later ← turns connectionFd n rest
      .ok (reaction :: later)

/-- The condition for each turn that is taken. -/
def EachFits : ℕ → Bytes → Prop
  | 0, _ => True
  | n + 1, stdin => Fits stdin ∧ (¬ exitWord <+: command (nextChunk stdin) →
      EachFits n (stdin.drop (nextChunk stdin).length))

private theorem requestIfFits_cases (action : UInt8) (announcement : Bytes) (connectionFd : ℕ)
    (w : Bytes) :
    (∃ reaction, requestIfFits action announcement connectionFd w = .ok reaction ∧
      reaction.exits = false ∧ w.length ≤ 50) ∨
    requestIfFits action announcement connectionFd w = .error .outsideTopic ∧ ¬ w.length ≤ 50 := by
  rw [requestIfFits]
  split_ifs with h
  · exact .inl ⟨_, rfl, rfl, Nat.le_of_lt_succ h⟩
  · exact .inr ⟨rfl, fun hle => h (Nat.lt_succ_of_le hle)⟩

/-- At most one keyword starts the line, so only its topic counts. -/
theorem topicFits_iff_of_keyword {keyword s : Bytes} (hk : keyword ∈ [subscribeWord, unsubscribeWord])
    (h : keyword <+: s) :
    TopicFits s ↔ (word (s.drop (keyword.length + 1))).length ≤ 50 := by
  refine ⟨fun hfits => hfits keyword hk h, ?_⟩
  intro hle other hother hfront
  have hsame : ∀ k ∈ [subscribeWord, unsubscribeWord], ∀ j ∈ [subscribeWord, unsubscribeWord],
      k ≠ j → ¬ k <+: j := by decide
  by_cases heq : keyword = other
  · exact heq ▸ hle
  · exact absurd hfront (not_front_of_front h (hsame _ hk _ hother heq)
      (hsame _ hother _ hk (Ne.symm heq)))

/-- The answer to a command, or the one way it can fail. -/
theorem reply_cases (connectionFd : ℕ) (s : Bytes) :
    (∃ reaction, reply connectionFd s = .ok reaction ∧
      (reaction.exits = true ↔ exitWord <+: s) ∧ TopicFits s) ∨
    reply connectionFd s = .error .outsideTopic ∧ ¬ TopicFits s := by
  rw [reply]
  split_ifs with hexit hsubscribe hunsubscribe
  · refine .inl ⟨_, rfl, by simp [hexit], ?_⟩
    intro keyword hk hfront
    have hother : ∀ k ∈ [subscribeWord, unsubscribeWord], ¬ exitWord <+: k ∧ ¬ k <+: exitWord := by
      decide
    exact absurd hfront (not_front_of_front hexit (hother _ hk).1 (hother _ hk).2)
  · rw [topicFits_iff_of_keyword (by simp) hsubscribe]
    rcases requestIfFits_cases subscribeAction (ascii "Subscribed to topic ") connectionFd
      (word (s.drop 10)) with ⟨reaction, hok, hexits, hle⟩ | herror
    · exact .inl ⟨reaction, hok, by simp [hexits, hexit], hle⟩
    · exact .inr herror
  · rw [topicFits_iff_of_keyword (by simp) hunsubscribe]
    rcases requestIfFits_cases unsubscribeAction (ascii "Unsubscribed to topic ") connectionFd
      (word (s.drop 12)) with ⟨reaction, hok, hexits, hle⟩ | herror
    · exact .inl ⟨reaction, hok, by simp [hexits, hexit], hle⟩
    · exact .inr herror
  · refine .inl ⟨_, rfl, by simp [hexit], ?_⟩
    intro keyword hk hfront
    simp only [List.mem_cons, List.not_mem_nil, or_false] at hk
    rcases hk with rfl | rfl
    · exact absurd hfront hsubscribe
    · exact absurd hfront hunsubscribe

/-- A call returns when its input fits, and otherwise makes a store outside an array. -/
theorem stdinBranch_cases (connectionFd : ℕ) (stdin : Bytes) :
    (∃ reaction, stdinBranch connectionFd stdin =
        .ok (reaction, stdin.drop (nextChunk stdin).length) ∧
      (reaction.exits = true ↔ exitWord <+: command (nextChunk stdin)) ∧ Fits stdin) ∨
    (∃ e, stdinBranch connectionFd stdin = .error e ∧ Outside e) ∧ ¬ Fits stdin := by
  by_cases hempty : untilNul (nextChunk stdin) = []
  · exact .inr ⟨⟨_, stdinBranch_empty connectionFd hempty, .inr rfl⟩, fun h => h.1 hempty⟩
  · rw [stdinBranch_eq connectionFd hempty]
    rcases reply_cases connectionFd (command (nextChunk stdin)) with
      ⟨reaction, hok, hexits, hfits⟩ | ⟨herror, hfits⟩
    · rw [hok, ok_bind]
      exact .inl ⟨reaction, rfl, hexits, hempty, hfits⟩
    · rw [herror, error_bind]
      exact .inr ⟨⟨_, rfl, .inl rfl⟩, fun h => hfits h.2⟩

private theorem staysInside_ok {α : Type} (a : α) : StaysInside (.ok a : Except Fault α) := by
  intro e he
  cases he

/-- What follows a computation that stays inside can still leave. -/
theorem staysInside_bind_ok {α β : Type} (x : Except Fault α) (f : α → β) :
    StaysInside (x >>= fun a => .ok (f a)) ↔ StaysInside x := by
  cases x with
  | ok a => exact iff_of_true (staysInside_ok _) (staysInside_ok _)
  | error e =>
    constructor
    · intro h e' he
      cases he
      exact h e rfl
    · intro h e' he
      cases he
      exact h e rfl

/-- One turn, and the turns behind it unless it was the last one. -/
theorem staysInside_turns_succ (connectionFd n : ℕ) (stdin : Bytes) :
    StaysInside (turns connectionFd (n + 1) stdin) ↔
      Fits stdin ∧ (¬ exitWord <+: command (nextChunk stdin) →
        StaysInside (turns connectionFd n (stdin.drop (nextChunk stdin).length))) := by
  rw [turns]
  rcases stdinBranch_cases connectionFd stdin with
    ⟨reaction, hok, hexits, hfits⟩ | ⟨⟨e, herror, houtside⟩, hfits⟩
  · rw [hok, ok_bind, and_iff_right hfits, ← hexits]
    dsimp only
    cases reaction.exits with
    | true => exact iff_of_true (staysInside_ok _) (fun h => absurd rfl h)
    | false =>
      have hlater := staysInside_bind_ok
        (turns connectionFd n (stdin.drop (nextChunk stdin).length)) (reaction :: ·)
      exact hlater.trans ⟨fun h _ => h, fun h => h Bool.false_ne_true⟩
  · rw [herror, error_bind]
    exact iff_of_false (fun h => h e rfl houtside) (fun h => hfits h.1)

/-- The stores stay inside their arrays exactly as long as the input fits them. -/
theorem staysInside_turns_iff (connectionFd n : ℕ) (stdin : Bytes) :
    StaysInside (turns connectionFd n stdin) ↔ EachFits n stdin := by
  induction n generalizing stdin with
  | zero => exact iff_of_true (staysInside_ok _) trivial
  | succ n ih => rw [staysInside_turns_succ, EachFits, ih]

/-- The end of the file with nothing read, and a word of `51` bytes. -/
theorem staysInside_turns_fails :
    ¬ StaysInside (turns 3 1 []) ∧
    ¬ StaysInside (turns 3 1 (ascii "subscribe " ++ List.replicate 51 (byte 'a') ++ [newline])) := by
  constructor
  · rw [staysInside_turns_succ]
    exact fun h => absurd h.1 (by decide)
  · rw [staysInside_turns_succ]
    exact fun h => absurd h.1 (by decide +kernel)

end MessageBroker.KeyboardInput
