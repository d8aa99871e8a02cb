import MessageBroker.StandardInput
import MessageBroker.SubscriberHandlers
import MessageBroker.TransitionRuns

/-!
# The commands of a subscriber

`parse_stdin_command` reads one line into `buff`, cuts its last character and looks for a
keyword at its front. Every store is made with the index the code computes and is refused
outside the array it goes to.
-/
namespace MessageBroker.CommandLine
open ByteStrings WireFormat ServerStops Notification SubscriberHandlers StandardInput TransitionRuns

def maxLine : ℕ := 2 ^ 8

def exitWord : Bytes := ascii "exit"
def subscribeWord : Bytes := ascii "subscribe"
def unsubscribeWord : Bytes := ascii "unsubscribe"

/-- Why a command does not return: a store outside `topic` is the one way a handler of the
server cannot stop. -/
inductive Fault
  | outsideTopic
  | stop (s : Stop)
  deriving DecidableEq

/-- What a command does, and whether the process ends with it. -/
structure Reaction where
  effects : List Effect
  stderr : Bytes
  exits : Bool
  deriving DecidableEq

/-- A store at index `i` of an array of `size` bytes. -/
def storeInto (size : ℕ) (fault : Fault) (m : Memory) (i : ℤ) (bs : Bytes) : Except Fault Memory :=
  if 0 ≤ i ∧ i + bs.length ≤ size then .ok (m.store i.toNat bs) else .error fault

/-- The string at `off` in an array of `size` bytes. -/
def cstring (size : ℕ) (m : Memory) (off : ℕ) : Except Fault Bytes :=
  match readCStr (m.read off (size - off)) with
  | some s => .ok s
  | none => .error (.stop .unterminatedString)

/-- `sscanf(s, "%s", topic)` leaves the array as it is when there is no word. -/
def scanTopic (s : Bytes) (topic : Memory) : Except Fault Memory :=
  if word s = [] then .ok topic
  else storeInto maxTopic .outsideTopic topic 0 (word s ++ [0])

/-- The literal's size counts its terminator, so `tmp` is one byte behind the keyword. The
result of `sscanf` is not looked at. -/
def requestTopic (keyword : Bytes) (action : UInt8) (announcement : Bytes) (connectionFd : ℕ)
    (buff topic : Memory) : Except Fault Reaction := do
  let tmp := keyword.length + 1
  let argument ← cstring maxLen buff tmp
  let topic ← scanTopic argument topic
  let t ← cstring maxTopic topic 0
  let ret ← (sendString (fun _ => 0) action t).mapError .stop
  if ret.length ≠ sizeofTcpHdr + t.length + 1 then
    .error (.stop (.die "wrong number of bytes send in subscribe action!\n"))
  else .ok ⟨[.send connectionFd ret, .print (announcement ++ t ++ ascii "\n")], [], false⟩

def subscribe : ℕ → Memory → Memory → Except Fault Reaction :=
  requestTopic subscribeWord subscribeAction (ascii "Subscribed to topic ")

def unsubscribe : ℕ → Memory → Memory → Except Fault Reaction :=
  requestTopic unsubscribeWord unsubscribeAction (ascii "Unsubscribed to topic ")

/-- `parse_stdin_command` behind the removal of the newline. -/
def runCommand (connectionFd : ℕ) (buff topic : Memory) : Except Fault Reaction := do
  let command ← cstring maxLen buff 0
  if strncmpEq exitWord command 4 then .ok ⟨handleShutdown connectionFd, [], true⟩
  else if strncmpEq subscribeWord command 9 then subscribe connectionFd buff topic
  else if strncmpEq unsubscribeWord command 11 then unsubscribe connectionFd buff topic
  else .ok ⟨[], ascii "Wrong command format!\n", false⟩

/-- `parse_stdin_command` behind the call of `fgets`. Of an empty string the byte in front of
the array is overwritten. -/
def parseChunk (connectionFd : ℕ) (buff topic : Memory) (chunk : Option Bytes) :
    Except Fault Reaction := do
  let buff ← match chunk with
    | some line => storeInto maxLen (.stop .outsideBuff) buff 0 (line ++ [0])
    | none => .ok buff
  let s ← cstring maxLen buff 0
  let buff ← storeInto maxLen (.stop .outsideBuff) buff (s.length - 1 : ℤ) [0]
  runCommand connectionFd buff topic

def parseStdinCommand (connectionFd : ℕ) (buff topic : Memory) (stdin : Bytes) :
    Except Fault (Reaction × Bytes) := do
  let (chunk, rest) := fgets maxLine stdin
  let reaction ← parseChunk connectionFd buff topic chunk
  .ok (reaction, rest)

/-- The branch of `run_subscriber`, with the two buffers cleared in front of `poll`. -/
def stdinBranch (connectionFd : ℕ) (stdin : Bytes) : Except Fault (Reaction × Bytes) :=
  parseStdinCommand connectionFd (fun _ => 0) (fun _ => 0) stdin

/-- What a line is once its last character is cut. -/
def command (chunk : Bytes) : Bytes := (untilNul chunk).dropLast

/-- The string in `buff`, also read from behind its start up to one byte behind its end. -/
structure Holds (buff : Memory) (s : Bytes) : Prop where
  terminated : 0 ∉ s
  tail : ∀ off ≤ s.length + 1, cstring maxLen buff off = .ok (s.drop off)

private theorem storeInto_ok {size : ℕ} {fault : Fault} {m : Memory} {i : ℕ} {bs : Bytes}
    (h : i + bs.length ≤ size) : storeInto size fault m i bs = .ok (m.store i bs) :=
  if_pos ⟨Int.natCast_nonneg i, by exact_mod_cast h⟩

private theorem cstring_of_read {size off : ℕ} {m : Memory} {t rest : Bytes}
    (h : m.read off (size - off) = t ++ 0 :: rest) (ht : 0 ∉ t) : cstring size m off = .ok t := by
  rw [cstring, h, readCStr_append_zero t rest ht]

/-- A string that ends in front of two zero bytes. -/
theorem holds_of_read {buff : Memory} {t rest : Bytes}
    (h : buff.read 0 maxLen = t ++ 0 :: 0 :: rest) (ht : 0 ∉ t) : Holds buff t := by
  refine ⟨ht, ?_⟩
  intro off hoff
  have hlen := congrArg List.length h
  simp only [Memory.length_read, List.length_append, List.length_cons] at hlen
  have hread : buff.read off (maxLen - off) = (t ++ 0 :: 0 :: rest).drop off := by
    rw [← h, ← Nat.add_sub_cancel' (show off ≤ maxLen by omega), Memory.read_add, Nat.zero_add,
      List.drop_left' (Memory.length_read _ _ _), Nat.add_sub_cancel_left]
  rcases Nat.lt_or_eq_of_le hoff with hlt | rfl
  · rw [List.drop_append_of_le_length (Nat.le_of_lt_succ hlt)] at hread
    exact cstring_of_read hread (fun hmem => ht (List.mem_of_mem_drop hmem))
  · rw [List.drop_of_length_le (Nat.le_succ _)]
    rw [List.drop_append, List.drop_of_length_le (Nat.le_succ _), Nat.add_sub_cancel_left] at hread
    exact cstring_of_read hread List.not_mem_nil

/-- The line in the cleared buffer. -/
theorem read_store_line {chunk : Bytes} (hlen : chunk.length < maxLen) :
    ∃ rest, (Memory.store (fun _ => 0) 0 (chunk ++ [0])).read 0 maxLen =
      untilNul chunk ++ 0 :: rest := by
  obtain ⟨k, hk⟩ := Nat.exists_eq_add_of_lt hlen
  have hread : (Memory.store (fun _ => 0) 0 (chunk ++ [0])).read 0 maxLen =
      chunk ++ List.replicate (k + 1) 0 := by
    rw [Memory.read_store_zero, List.length_append, List.length_singleton, hk,
      List.take_of_length_le (by simp), Nat.add_assoc, Nat.add_sub_add_left, List.append_assoc,
      Nat.add_sub_cancel]
    rfl
  have hzero : 0 ∈ chunk ++ List.replicate (k + 1) 0 :=
    List.mem_append_right chunk List.mem_cons_self
  obtain ⟨rest, hrest⟩ := exists_eq_untilNul_append hzero
  rw [untilNul_append_replicate] at hrest
  exact ⟨rest, hread.trans hrest⟩

/-- Both stores and the `strlen` between them. -/
theorem parseChunk_some (connectionFd : ℕ) (topic : Memory) {chunk : Bytes}
    (hlen : chunk.length < maxLen) :
    parseChunk connectionFd (fun _ => 0) topic (some chunk) =
      (storeInto maxLen (.stop .outsideBuff) (Memory.store (fun _ => 0) 0 (chunk ++ [0]))
        ((untilNul chunk).length - 1 : ℤ) [0] >>= fun buff => runCommand connectionFd buff topic) := by
  obtain ⟨rest, hread⟩ := read_store_line hlen
  have hend : 0 + (chunk ++ [0]).length ≤ maxLen := by
    rw [List.length_append, List.length_singleton]
    omega
  have hline : storeInto maxLen (.stop .outsideBuff) (fun _ => 0) 0 (chunk ++ [0]) = _ :=
    storeInto_ok hend
  have hstring : cstring maxLen _ 0 = _ := cstring_of_read hread (zero_notMem_untilNul chunk)
  simp only [parseChunk]
  rw [hline, ok_bind, hstring, ok_bind]

/-- Without a character in front of a NUL there is nothing to cut. -/
theorem parseChunk_empty (connectionFd : ℕ) (topic : Memory) {chunk : Bytes}
    (hlen : chunk.length < maxLen) (h : untilNul chunk = []) :
    parseChunk connectionFd (fun _ => 0) topic (some chunk) = .error (.stop .outsideBuff) := by
  rw [parseChunk_some connectionFd topic hlen, h]
  rfl

/-- At the end of the file the buffer is as it was cleared. -/
theorem parseChunk_none (connectionFd : ℕ) (topic : Memory) :
    parseChunk connectionFd (fun _ => 0) topic none = .error (.stop .outsideBuff) := by
  have hstring : cstring maxLen (fun _ => 0) 0 = .ok [] := by
    have hread : Memory.read (fun _ => 0) 0 maxLen = [] ++ 0 :: List.replicate (maxLen - 1) 0 :=
      Memory.read_zero 0 maxLen
    exact cstring_of_read hread List.not_mem_nil
  simp only [parseChunk]
  rw [ok_bind, hstring, ok_bind]
  rfl

/-- Otherwise the command is left in the buffer. -/
theorem parseChunk_eq (connectionFd : ℕ) (topic : Memory) {chunk : Bytes}
    (hlen : chunk.length < maxLen) (h : untilNul chunk ≠ []) :
    ∃ buff, Holds buff (command chunk) ∧
      parseChunk connectionFd (fun _ => 0) topic (some chunk) =
        runCommand connectionFd buff topic := by
  obtain ⟨rest, hread⟩ := read_store_line hlen
  have hsplit := List.dropLast_append_getLast h
  have hcut : (untilNul chunk).length = (command chunk).length + 1 := by
    rw [← hsplit]
    simp [command]
  have hlast : ((untilNul chunk).length - 1 : ℤ) = ((command chunk).length : ℤ) := by
    rw [hcut]
    omega
  have hend : (command chunk).length + [(0 : UInt8)].length ≤ maxLen := by
    have hle : (untilNul chunk).length ≤ chunk.length := (List.takeWhile_prefix _).length_le
    rw [List.length_singleton, ← hcut]
    omega
  rw [← hsplit, List.append_assoc] at hread
  have hcutread : (Memory.store _ (command chunk).length [0]).read 0 maxLen =
      command chunk ++ ([0] ++ 0 :: rest) := Memory.read_store_middle hread rfl
  refine ⟨_, holds_of_read hcutread ?_, ?_⟩
  · intro hmem
    exact zero_notMem_untilNul chunk (List.dropLast_subset _ hmem)
  · rw [parseChunk_some connectionFd topic hlen, hlast, storeInto_ok hend, ok_bind]

private theorem zero_notMem_word {s : Bytes} (h : 0 ∉ s) : 0 ∉ word s := by
  intro hmem
  exact h ((List.dropWhile_sublist _).subset ((List.takeWhile_sublist _).subset hmem))

/-- The word in the cleared array. -/
theorem scanTopic_ok {s w : Bytes} (h : 0 ∉ w) (hw : word s = w) (hlen : w.length < maxTopic) :
    ∃ topic, scanTopic s (fun _ => 0) = .ok topic ∧ cstring maxTopic topic 0 = .ok w := by
  rw [scanTopic, hw]
  split_ifs with hnil
  · subst hnil
    exact ⟨_, rfl, cstring_of_read (Memory.read_zero 0 maxTopic) List.not_mem_nil⟩
  · have hend : (w ++ [0]).length ≤ maxTopic := by simpa using Nat.succ_le_of_lt hlen
    have hread := Memory.read_store_zero (w ++ [0]) maxTopic
    rw [List.take_of_length_le hend, List.append_assoc] at hread
    exact ⟨_, storeInto_ok (by rwa [Nat.zero_add]), cstring_of_read hread h⟩

private theorem scanTopic_error {s w : Bytes} (topic : Memory) (hw : word s = w)
    (hlen : ¬ w.length < maxTopic) : scanTopic s topic = .error .outsideTopic := by
  have hnil : w ≠ [] := by
    intro hnil
    exact hlen (hnil ▸ by decide)
  rw [scanTopic, hw, if_neg hnil, storeInto, if_neg]
  rw [List.length_append, List.length_singleton]
  omega

/-- What is done for the word `w`, also if it is empty. -/
def request (action : UInt8) (announcement : Bytes) (connectionFd : ℕ) (w : Bytes) : Reaction :=
  ⟨[.send connectionFd (action :: le32 (w.length + 1) ++ (w ++ [0])),
    .print (announcement ++ w ++ ascii "\n")], [], false⟩

private theorem requestTopic_ok {keyword s w : Bytes} (action : UInt8) (announcement : Bytes)
    (connectionFd : ℕ) {buff : Memory} (h : Holds buff s) (hk : keyword.length ≤ s.length)
    (hw : word (s.drop (keyword.length + 1)) = w) (hlen : w.length < maxTopic) :
    requestTopic keyword action announcement connectionFd buff (fun _ => 0) =
      .ok (request action announcement connectionFd w) := by
  have hargument := h.tail (keyword.length + 1) (Nat.succ_le_succ hk)
  have hzero : 0 ∉ w :=
    hw ▸ zero_notMem_word (fun hmem => h.terminated (List.mem_of_mem_drop hmem))
  obtain ⟨topic, hstore, hstring⟩ := scanTopic_ok hzero hw hlen
  have hfits : w.length + 1 ≤ maxLen - sizeofTcpHdr := by
    simp only [maxTopic, maxLen, sizeofTcpHdr] at hlen ⊢
    omega
  have hsent := sendString_eq (fun _ => 0) action hfits
  have hbytes : (stringPacket action w hfits).bytes =
      action :: le32 (w.length + 1) ++ (w ++ [0]) := by
    rw [Packet.bytes, stringPacket, List.length_append]
    rfl
  have hret : (stringPacket action w hfits).bytes.length = sizeofTcpHdr + w.length + 1 := by
    rw [Packet.length_bytes, stringPacket, List.length_append, List.length_singleton, Nat.add_assoc]
  simp only [requestTopic]
  rw [hargument, ok_bind, hstore, ok_bind, hstring, ok_bind, hsent]
  simp only [Except.mapError, ok_bind]
  rw [if_neg (not_not.mpr hret), hbytes]
  rfl

/-- A longer word does not fit `topic`. -/
theorem requestTopic_error {keyword s w : Bytes} (action : UInt8) (announcement : Bytes)
    (connectionFd : ℕ) {buff : Memory} (topic : Memory) (h : Holds buff s)
    (hk : keyword.length ≤ s.length) (hw : word (s.drop (keyword.length + 1)) = w)
    (hlen : ¬ w.length < maxTopic) :
    requestTopic keyword action announcement connectionFd buff topic = .error .outsideTopic := by
  have hargument := h.tail (keyword.length + 1) (Nat.succ_le_succ hk)
  simp only [requestTopic]
  rw [hargument, ok_bind, scanTopic_error topic hw hlen]
  rfl

/-- A request that is made if its word fits. -/
def requestIfFits (action : UInt8) (announcement : Bytes) (connectionFd : ℕ) (w : Bytes) :
    Except Fault Reaction :=
  if w.length < maxTopic then .ok (request action announcement connectionFd w)
  else .error .outsideTopic

private theorem requestTopic_eq {keyword s : Bytes} (action : UInt8) (announcement : Bytes)
    (connectionFd : ℕ) {buff : Memory} (h : Holds buff s) (hk : keyword <+: s) :
    requestTopic keyword action announcement connectionFd buff (fun _ => 0) =
      requestIfFits action announcement connectionFd (word (s.drop (keyword.length + 1))) := by
  rw [requestIfFits]
  split_ifs with hlen
  · exact requestTopic_ok action announcement connectionFd h hk.length_le rfl hlen
  · exact requestTopic_error action announcement connectionFd _ h hk.length_le rfl hlen

/-- What a command does, read off its text. -/
def reply (connectionFd : ℕ) (s : Bytes) : Except Fault Reaction :=
  if exitWord <+: s then .ok ⟨handleShutdown connectionFd, [], true⟩
  else if subscribeWord <+: s then
    requestIfFits subscribeAction (ascii "Subscribed to topic ") connectionFd (word (s.drop 10))
  else if unsubscribeWord <+: s then
    requestIfFits unsubscribeAction (ascii "Unsubscribed to topic ") connectionFd (word (s.drop 12))
  else .ok ⟨[], ascii "Wrong command format!\n", false⟩

/-- No two keywords start the same line. -/
theorem not_front_of_front {k j line : Bytes} (h : k <+: line) (hk : ¬ k <+: j)
    (hj : ¬ j <+: k) : ¬ j <+: line := by
  intro h'
  rcases List.prefix_or_prefix_of_prefix h h' with hp | hp
  · exact hk hp
  · exact hj hp

private theorem runCommand_eq (connectionFd : ℕ) {buff : Memory} {s : Bytes} (h : Holds buff s) :
    runCommand connectionFd buff (fun _ => 0) = reply connectionFd s := by
  have hcommand := h.tail 0 (Nat.zero_le _)
  have hexit : strncmpEq exitWord s 4 = true ↔ exitWord <+: s :=
    strncmpEq_iff (by decide) h.terminated
  have hsubscribe : strncmpEq subscribeWord s 9 = true ↔ subscribeWord <+: s :=
    strncmpEq_iff (by decide) h.terminated
  have hunsubscribe : strncmpEq unsubscribeWord s 11 = true ↔ unsubscribeWord <+: s :=
    strncmpEq_iff (by decide) h.terminated
  simp only [runCommand]
  rw [hcommand, ok_bind, List.drop_zero, reply]
  simp only [hexit, hsubscribe, hunsubscribe]
  split_ifs with _ hk hk
  · rfl
  · exact requestTopic_eq _ _ connectionFd h hk
  · exact requestTopic_eq _ _ connectionFd h hk
  · rfl

/-- A line that has something to cut is answered by what is left of it. -/
theorem parseChunk_reply (connectionFd : ℕ) {chunk : Bytes} (hlen : chunk.length < maxLen)
    (h : untilNul chunk ≠ []) :
    parseChunk connectionFd (fun _ => 0) (fun _ => 0) (some chunk) =
      reply connectionFd (command chunk) := by
  obtain ⟨buff, hholds, heq⟩ := parseChunk_eq connectionFd (fun _ => 0) hlen h
  exact heq.trans (runCommand_eq connectionFd hholds)

/-- What one call of `fgets` takes from the stream. -/
def nextChunk (stdin : Bytes) : Bytes := takeLine (maxLine - 1) stdin

theorem length_nextChunk_lt (stdin : Bytes) : (nextChunk stdin).length < maxLen :=
  Nat.lt_of_le_of_lt (length_takeLine_le _ _) (by decide)

/-- Nothing to read, or nothing in front of a NUL. -/
theorem stdinBranch_empty (connectionFd : ℕ) {stdin : Bytes}
    (h : untilNul (nextChunk stdin) = []) :
    stdinBranch connectionFd stdin = .error (.stop .outsideBuff) := by
  rw [stdinBranch, parseStdinCommand, fgets]
  split_ifs with hnil
  · simp only
    rw [parseChunk_none]
    rfl
  · have hempty := parseChunk_empty connectionFd (fun _ => 0) (length_nextChunk_lt stdin) h
    simp only
    rw [← nextChunk, hempty]
    rfl

theorem stdinBranch_eq (connectionFd : ℕ) {stdin : Bytes} (h : untilNul (nextChunk stdin) ≠ []) :
    stdinBranch connectionFd stdin = reply connectionFd (command (nextChunk stdin)) >>=
      fun reaction => .ok (reaction, stdin.drop (nextChunk stdin).length) := by
  have hnil : stdin ≠ [] := by
    intro hnil
    exact h (by rw [hnil]; rfl)
  have hreply := parseChunk_reply connectionFd (length_nextChunk_lt stdin) h
  rw [stdinBranch, parseStdinCommand, fgets, if_neg hnil]
  simp only
  rw [← nextChunk, hreply]

end MessageBroker.CommandLine
