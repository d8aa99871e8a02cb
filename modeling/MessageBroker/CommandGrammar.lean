import MessageBroker.CommandLine

/-!
# The language of the command line

Which lines are commands, stated apart from the code, and which of the lines it reads the code
answers as this grammar says.
-/
namespace MessageBroker.CommandGrammar
open ByteStrings WireFormat ServerStops SubscriberHandlers StandardInput CommandLine TransitionRuns

inductive Command
  | exit
  | subscribe (t : Bytes)
  | unsubscribe (t : Bytes)

/-- A header with the length of the topic and its terminator, and both. -/
def topicFrame (action : UInt8) (t : Bytes) : Bytes := action :: le32 (t.length + 1) ++ (t ++ [0])

def Command.frame : Command → Bytes
  | .exit => shutdownPacket.bytes
  | .subscribe t => topicFrame subscribeAction t
  | .unsubscribe t => topicFrame unsubscribeAction t

/-- A keyword, white space and one word that is a topic. -/
structure RequestLine (keyword line gap t : Bytes) : Prop where
  parts : line = keyword ++ (gap ++ t)
  gap_ne_nil : gap ≠ []
  gap_space : ∀ b ∈ gap, isSpace b = true
  topic_ne_nil : t ≠ []
  topic_word : ∀ b ∈ t, isSpace b = false
  topic_fits : t.length ≤ 50

inductive Accepts : Bytes → Command → Prop
  | exit : Accepts exitWord .exit
  | subscribe {line gap t : Bytes} (h : RequestLine subscribeWord line gap t) :
      Accepts line (.subscribe t)
  | unsubscribe {line gap t : Bytes} (h : RequestLine unsubscribeWord line gap t) :
      Accepts line (.unsubscribe t)

def keywords : List Bytes := [exitWord, subscribeWord, unsubscribeWord]

def sentBy : Except Fault (Reaction × Bytes) → List (ℕ × Bytes)
  | .ok (reaction, _) => sends reaction.effects
  | .error _ => []

def errorText : Except Fault (Reaction × Bytes) → Bytes
  | .ok (reaction, _) => reaction.stderr
  | .error _ => []

/-- A command is sent, and nothing else; another line is reported, and nothing is sent. -/
structure Obeys (connectionFd : ℕ) (line : Bytes) (result : Except Fault (Reaction × Bytes)) :
    Prop where
  sent : ∀ c : Command, sentBy result = [(connectionFd, c.frame)] ↔ Accepts line c
  rejected : (∀ c, ¬ Accepts line c) →
    sentBy result = [] ∧ errorText result = ascii "Wrong command format!\n"

private theorem topicFrame_inj {a a' : UInt8} {t t' : Bytes}
    (h : topicFrame a t = topicFrame a' t') :
    a = a' ∧ t = t' := by
  obtain ⟨haction, hrest⟩ := List.cons.inj h
  obtain ⟨-, htopic⟩ := List.append_inj hrest rfl
  exact ⟨haction, List.append_cancel_right htopic⟩

theorem Command.frame_injective {c c' : Command} (h : c.frame = c'.frame) : c = c' := by
  have hother (a : UInt8) (t : Bytes) (ha : a ≠ shutdownClose) :
      topicFrame a t ≠ shutdownPacket.bytes := by
    intro he
    exact ha (List.cons.inj he).1
  cases c with
  | exit => cases c' with
    | exit => rfl
    | subscribe t => exact absurd h.symm (hother _ t (by decide))
    | unsubscribe t => exact absurd h.symm (hother _ t (by decide))
  | subscribe t => cases c' with
    | exit => exact absurd h (hother _ t (by decide))
    | subscribe t' => rw [(topicFrame_inj h).2]
    | unsubscribe t' => exact absurd (topicFrame_inj h).1 (by decide)
  | unsubscribe t => cases c' with
    | exit => exact absurd h (hother _ t (by decide))
    | subscribe t' => exact absurd (topicFrame_inj h).1 (by decide)
    | unsubscribe t' => rw [(topicFrame_inj h).2]

theorem RequestLine.keyword_front {keyword line gap t : Bytes}
    (h : RequestLine keyword line gap t) : keyword <+: line :=
  h.parts ▸ List.prefix_append _ _

/-- Behind the first character of the gap `sscanf` finds the topic. -/
theorem RequestLine.word_eq {keyword line gap t : Bytes} (h : RequestLine keyword line gap t) :
    word (line.drop (keyword.length + 1)) = t := by
  obtain ⟨rfl, hne, hspace, -, hword, -⟩ := h
  cases gap with
  | nil => exact absurd rfl hne
  | cons b gap =>
    have hdrop : (keyword ++ (b :: gap ++ t)).drop (keyword.length + 1) = gap ++ t := by
      rw [← List.drop_drop, List.drop_left]
      rfl
    rw [hdrop]
    exact word_append (fun c hc => hspace c (List.mem_cons_of_mem b hc)) hword

theorem Accepts.keyword_front {line : Bytes} {c : Command} (h : Accepts line c) :
    ∃ keyword ∈ keywords, keyword <+: line := by
  cases h with
  | exit => exact ⟨exitWord, by simp [keywords], List.prefix_rfl⟩
  | subscribe h => exact ⟨subscribeWord, by simp [keywords], h.keyword_front⟩
  | unsubscribe h => exact ⟨unsubscribeWord, by simp [keywords], h.keyword_front⟩

private theorem requestIfFits_eq {action : UInt8} (announcement : Bytes) (connectionFd : ℕ)
    {t : Bytes} (h : t.length ≤ 50) : ∃ reaction,
      requestIfFits action announcement connectionFd t = .ok reaction ∧
        sends reaction.effects = [(connectionFd, topicFrame action t)] :=
  ⟨_, if_pos (Nat.lt_succ_of_le h), rfl⟩

/-- A command of the grammar is sent. -/
theorem reply_of_accepts (connectionFd : ℕ) {line : Bytes} {c : Command} (h : Accepts line c) :
    ∃ reaction, reply connectionFd line = .ok reaction ∧
      sends reaction.effects = [(connectionFd, c.frame)] := by
  cases h with
  | exit =>
    refine ⟨_, if_pos List.prefix_rfl, ?_⟩
    rw [handleShutdown_eq]
    rfl
  | subscribe h =>
    have hexit := not_front_of_front h.keyword_front (j := exitWord) (by decide) (by decide)
    have hword := h.word_eq
    rw [reply, if_neg hexit, if_pos h.keyword_front]
    rw [show word (line.drop 10) = _ from hword]
    exact requestIfFits_eq _ connectionFd h.topic_fits
  | unsubscribe h =>
    have hexit := not_front_of_front h.keyword_front (j := exitWord) (by decide) (by decide)
    have hsubscribe :=
      not_front_of_front h.keyword_front (j := subscribeWord) (by decide) (by decide)
    have hword := h.word_eq
    rw [reply, if_neg hexit, if_neg hsubscribe, if_pos h.keyword_front]
    rw [show word (line.drop 12) = _ from hword]
    exact requestIfFits_eq _ connectionFd h.topic_fits

/-- Commands have one reading. -/
theorem Accepts.unique {line : Bytes} {c c' : Command} (h : Accepts line c) (h' : Accepts line c') :
    c = c' := by
  obtain ⟨reaction, hreply, hsent⟩ := reply_of_accepts 0 h
  obtain ⟨reaction', hreply', hsent'⟩ := reply_of_accepts 0 h'
  rw [hreply] at hreply'
  obtain rfl := Except.ok.inj hreply'
  rw [hsent] at hsent'
  exact Command.frame_injective (Prod.mk.inj (List.cons.inj hsent').1).2

/-- A line with a keyword at its front is never reported. -/
theorem errorText_of_keyword (connectionFd : ℕ) {line keyword : Bytes} (hk : keyword ∈ keywords)
    (h : keyword <+: line) (rest : Bytes) :
    errorText (reply connectionFd line >>= fun reaction => .ok (reaction, rest)) = [] := by
  have hrequest (action : UInt8) (announcement w : Bytes) :
      errorText (requestIfFits action announcement connectionFd w >>=
        fun reaction => .ok (reaction, rest)) = [] := by
    rw [requestIfFits]
    split_ifs <;> rfl
  rw [reply]
  split_ifs with hexit hsubscribe hunsubscribe
  · rfl
  · exact hrequest _ _ _
  · exact hrequest _ _ _
  · simp only [keywords, List.mem_cons, List.not_mem_nil, or_false] at hk
    rcases hk with rfl | rfl | rfl
    · exact absurd h hexit
    · exact absurd h hsubscribe
    · exact absurd h hunsubscribe

private theorem reply_of_no_keyword (connectionFd : ℕ) {line : Bytes}
    (h : ∀ keyword ∈ keywords, ¬ keyword <+: line) :
    reply connectionFd line = .ok ⟨[], ascii "Wrong command format!\n", false⟩ := by
  rw [reply, if_neg (h _ (by simp [keywords])), if_neg (h _ (by simp [keywords])),
    if_neg (h _ (by simp [keywords]))]

/-- A short line is read as a whole and loses its newline. -/
theorem command_line {line : Bytes} (rest : Bytes) (hnewline : newline ∉ line) (hzero : 0 ∉ line)
    (hlen : line.length ≤ 254) :
    nextChunk (line ++ newline :: rest) = line ++ [newline] ∧
      untilNul (line ++ [newline]) ≠ [] ∧ command (line ++ [newline]) = line := by
  have hchunk : nextChunk (line ++ newline :: rest) = line ++ [newline] :=
    takeLine_append_newline rest hnewline (Nat.lt_succ_of_le hlen)
  have htext : untilNul (line ++ [newline]) = line ++ [newline] := by
    apply untilNul_of_notMem
    rw [List.mem_append, List.mem_singleton]
    rintro (hmem | heq)
    · exact hzero hmem
    · exact absurd heq (by decide)
  refine ⟨hchunk, ?_, ?_⟩
  · rw [htext]
    exact List.append_ne_nil_of_right_ne_nil _ (List.cons_ne_nil _ _)
  · rw [command, htext, List.dropLast_concat]

private theorem stdinBranch_line (connectionFd : ℕ) {line : Bytes} (rest : Bytes)
    (hnewline : newline ∉ line) (hzero : 0 ∉ line) (hlen : line.length ≤ 254) :
    stdinBranch connectionFd (line ++ newline :: rest) =
      (reply connectionFd line >>= fun reaction => .ok (reaction, rest)) := by
  obtain ⟨hchunk, hne, hcommand⟩ := command_line rest hnewline hzero hlen
  have hrest : (line ++ newline :: rest).drop (line ++ [newline]).length = rest := by
    rw [List.append_cons line newline rest, List.drop_left]
  rw [← hchunk] at hne
  rw [stdinBranch_eq connectionFd hne, hchunk, hcommand, hrest]

/-- Where a keyword is followed by anything else the line is not rejected. -/
theorem not_obeys {connectionFd : ℕ} {line keyword rest : Bytes} (hnewline : newline ∉ line)
    (hzero : 0 ∉ line) (hlen : line.length ≤ 254) (hk : keyword ∈ keywords)
    (hfront : keyword <+: line) (hother : ∀ c, ¬ Accepts line c) :
    ¬ Obeys connectionFd line (stdinBranch connectionFd (line ++ newline :: rest)) := by
  intro h
  have hbranch := stdinBranch_line connectionFd rest hnewline hzero hlen
  have herror := (h.rejected hother).2
  rw [hbranch, errorText_of_keyword connectionFd hk hfront] at herror
  exact absurd herror (by decide)

/-- The lines that are answered as the grammar says: its own, and those that do not start with a
keyword. -/
theorem obeys_iff (connectionFd : ℕ) {line : Bytes} (rest : Bytes) (hnewline : newline ∉ line)
    (hzero : 0 ∉ line) (hlen : line.length ≤ 254) :
    Obeys connectionFd line (stdinBranch connectionFd (line ++ newline :: rest)) ↔
      (∃ c, Accepts line c) ∨ ∀ keyword ∈ keywords, ¬ keyword <+: line := by
  have hbranch := stdinBranch_line connectionFd rest hnewline hzero hlen
  constructor
  · intro h
    by_contra hneither
    obtain ⟨hother, hkeyword⟩ := not_or.mp hneither
    push Not at hkeyword
    obtain ⟨keyword, hk, hfront⟩ := hkeyword
    exact not_obeys hnewline hzero hlen hk hfront (not_exists.mp hother) h
  · rintro (⟨c, haccepts⟩ | hno)
    · obtain ⟨reaction, hreply, hsent⟩ := reply_of_accepts connectionFd haccepts
      rw [hbranch, hreply]
      refine ⟨?_, fun hother => absurd haccepts (hother c)⟩
      intro c'
      rw [ok_bind, sentBy, hsent]
      constructor
      · intro heq
        have hframe := (Prod.mk.inj (List.cons.inj heq).1).2
        exact Command.frame_injective hframe ▸ haccepts
      · intro haccepts'
        rw [haccepts.unique haccepts']
    · rw [hbranch, reply_of_no_keyword connectionFd hno]
      refine ⟨?_, fun _ => ⟨rfl, rfl⟩⟩
      intro c
      constructor
      · intro heq
        exact absurd heq (List.cons_ne_nil _ _).symm
      · intro haccepts
        obtain ⟨keyword, hk, hfront⟩ := haccepts.keyword_front
        exact absurd hfront (hno keyword hk)

/-- A tab and two blanks in front of a topic. -/
theorem obeys_iff_subscribe :
    Obeys 3 (ascii "subscribe\t  upb/1")
      (stdinBranch 3 (ascii "subscribe\t  upb/1" ++ newline :: ascii "exit\n")) := by
  have hline : RequestLine subscribeWord (ascii "subscribe\t  upb/1") (ascii "\t  ")
      (ascii "upb/1") :=
    ⟨rfl, List.cons_ne_nil _ _, by decide +kernel, List.cons_ne_nil _ _, by decide +kernel,
      by decide⟩
  exact (obeys_iff 3 _ (by decide) (by decide) (by decide)).mpr (.inl ⟨_, .subscribe hline⟩)

/-- `exit` is recognised in a longer word, and a topic is requested where none is given. -/
theorem obeys_fails :
    ¬ Obeys 3 (ascii "exits") (stdinBranch 3 (ascii "exits" ++ newline :: [])) ∧
    ¬ Obeys 3 subscribeWord (stdinBranch 3 (subscribeWord ++ newline :: [])) := by
  constructor
  · apply not_obeys (by decide) (by decide) (by decide) (show exitWord ∈ keywords by decide)
      (by decide)
    intro c h
    generalize hline : ascii "exits" = line at h
    cases h with
    | exit => exact absurd hline (by decide)
    | subscribe h => exact absurd (hline ▸ h.keyword_front) (by decide)
    | unsubscribe h => exact absurd (hline ▸ h.keyword_front) (by decide)
  · apply not_obeys (by decide) (by decide) (by decide) (show subscribeWord ∈ keywords by decide)
      List.prefix_rfl
    intro c h
    generalize hline : subscribeWord = line at h
    cases h with
    | exit => exact absurd hline (by decide)
    | subscribe h =>
      subst hline
      exact absurd h.word_eq.symm h.topic_ne_nil
    | unsubscribe h => exact absurd (hline ▸ h.keyword_front) (by decide)

end MessageBroker.CommandGrammar
