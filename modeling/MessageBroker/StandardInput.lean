import MessageBroker.ByteStrings

/-!
# Lines and words of an input stream

The part of `<stdio.h>` and `<string.h>` that reads a stream line by line: `fgets`, the
conversion `%s` of `sscanf`, and `strncmp`.
-/
namespace MessageBroker.StandardInput
open ByteStrings

def newline : UInt8 := byte '\n'

/-- `isspace` in the "C" locale. -/
def isSpace (b : UInt8) : Bool := decide (9 ≤ b ∧ b ≤ 13 ∨ b = 32)

/-- At most `n` bytes, and none behind the first newline. -/
def takeLine : ℕ → Bytes → Bytes
  | 0, _ => []
  | _, [] => []
  | n + 1, b :: bs => if b = newline then [b] else b :: takeLine n bs

/-- What `fgets(s, size, stream)` stores in front of the terminator, and what it leaves in the
stream. At the end of the file it stores nothing and returns `NULL`. -/
def fgets (size : ℕ) (stream : Bytes) : Option Bytes × Bytes :=
  let line := takeLine (size - 1) stream
  (if stream = [] then none else some line, stream.drop line.length)

/-- What `sscanf(s, "%s", …)` stores in front of the terminator, if it is not empty. -/
def word (s : Bytes) : Bytes := (s.dropWhile isSpace).takeWhile (fun b => !isSpace b)

/-- `strncmp(a, b, n) == 0`. -/
def strncmpEq (a b : Bytes) (n : ℕ) : Bool := (untilNul a).take n = (untilNul b).take n

@[simp] theorem takeLine_nil (n : ℕ) : takeLine n [] = [] := by cases n <;> rfl

theorem takeLine_front (n : ℕ) (s : Bytes) : takeLine n s <+: s := by
  induction s generalizing n with
  | nil => simp
  | cons b s ih =>
    cases n with
    | zero => exact List.nil_prefix
    | succ n =>
      rw [takeLine]
      split_ifs
      · exact List.cons_prefix_cons.mpr ⟨rfl, List.nil_prefix⟩
      · exact List.cons_prefix_cons.mpr ⟨rfl, ih n⟩

theorem length_takeLine_le (n : ℕ) (s : Bytes) : (takeLine n s).length ≤ n := by
  induction s generalizing n with
  | nil => simp
  | cons b s ih =>
    cases n with
    | zero => exact Nat.le_refl _
    | succ n =>
      rw [takeLine]
      split_ifs
      · simp
      · simpa using ih n

theorem takeLine_append_drop (n : ℕ) (s : Bytes) :
    takeLine n s ++ s.drop (takeLine n s).length = s := by
  obtain ⟨rest, hrest⟩ := takeLine_front n s
  have hdrop : s.drop (takeLine n s).length = rest :=
    (congrArg (List.drop _) hrest).symm.trans List.drop_left
  rw [hdrop, hrest]

theorem takeLine_append_of_notMem {w : Bytes} (s : Bytes) {n : ℕ} (h : newline ∉ w)
    (hlen : w.length ≤ n) : takeLine n (w ++ s) = w ++ takeLine (n - w.length) s := by
  induction w generalizing n with
  | nil => rfl
  | cons b w ih =>
    cases n with
    | zero => exact absurd hlen (Nat.not_succ_le_zero _)
    | succ n =>
      have hb : b ≠ newline := fun he => h (he ▸ List.mem_cons_self)
      have hw := ih (fun hm => h (List.mem_cons_of_mem b hm)) (Nat.le_of_succ_le_succ hlen)
      rw [List.cons_append, takeLine, if_neg hb, hw, List.cons_append, List.length_cons,
        Nat.add_sub_add_right]

/-- A line that is short enough is taken with its newline. -/
theorem takeLine_append_newline {line : Bytes} (rest : Bytes) {n : ℕ} (h : newline ∉ line)
    (hlen : line.length < n) : takeLine n (line ++ newline :: rest) = line ++ [newline] := by
  obtain ⟨k, rfl⟩ := Nat.exists_eq_add_of_lt hlen
  rw [takeLine_append_of_notMem _ h hlen.le, Nat.add_assoc, Nat.add_sub_cancel_left, takeLine,
    if_pos rfl]

theorem exists_takeLine_cons (n : ℕ) (b : UInt8) (s : Bytes) :
    ∃ t, takeLine (n + 1) (b :: s) = b :: t := by
  rw [takeLine]
  split_ifs
  · exact ⟨[], rfl⟩
  · exact ⟨_, rfl⟩

/-- What is left behind a line has no newline if there was at most one, and that within reach. -/
theorem newline_notMem_drop_takeLine (n : ℕ) (s : Bytes) :
    newline ∉ s.drop (takeLine n s).length ↔ s.count newline ≤ 1 ∧ newline ∉ s.drop n := by
  induction s generalizing n with
  | nil => simp
  | cons b s ih =>
    cases n with
    | zero =>
      refine ⟨fun h => ⟨?_, h⟩, And.right⟩
      exact (List.count_eq_zero.mpr h).le.trans (Nat.zero_le 1)
    | succ n =>
      rw [takeLine]
      split_ifs with hb
      · subst hb
        rw [List.count_cons_self, Nat.succ_le_succ_iff, Nat.le_zero, List.count_eq_zero]
        exact ⟨fun h => ⟨h, fun hm => h (List.mem_of_mem_drop hm)⟩, And.left⟩
      · rw [List.count_cons_of_ne hb]
        exact ih n

/-- Once a line is complete, what arrives later does not change it. -/
theorem takeLine_append_of_complete {n : ℕ} {s : Bytes} (rest : Bytes)
    (h : newline ∈ s ∨ n ≤ s.length) : takeLine n (s ++ rest) = takeLine n s := by
  induction s generalizing n with
  | nil =>
    obtain rfl : n = 0 := by simpa using h
    cases rest <;> rfl
  | cons b s ih =>
    cases n with
    | zero => rfl
    | succ n =>
      rw [List.cons_append, takeLine, takeLine]
      split_ifs with hb
      · rfl
      · rw [ih]
        rcases h with hmem | hlen
        · exact .inl ((List.mem_cons.mp hmem).resolve_left (Ne.symm hb))
        · exact .inr (Nat.le_of_succ_le_succ hlen)

/-- The word behind leading white space. -/
theorem word_append {gap w : Bytes} (hgap : ∀ b ∈ gap, isSpace b = true)
    (hw : ∀ b ∈ w, isSpace b = false) : word (gap ++ w) = w := by
  have hdrop : w.dropWhile isSpace = w := by
    cases w with
    | nil => rfl
    | cons b w => simp [hw b List.mem_cons_self]
  rw [word, List.dropWhile_append_of_pos hgap, hdrop, List.takeWhile_eq_self_iff]
  intro b hb
  rw [hw b hb]
  rfl

theorem strncmpEq_iff {a b : Bytes} (ha : 0 ∉ a) (hb : 0 ∉ b) :
    strncmpEq a b a.length = true ↔ a <+: b := by
  rw [strncmpEq, decide_eq_true_iff, untilNul_of_notMem ha, untilNul_of_notMem hb, List.take_length,
    List.prefix_iff_eq_take]

end MessageBroker.StandardInput
