import Mathlib.Data.List.Nodup

/-!
# Loops that remove what they visit

A loop by index over a list whose body may take the visited element out. The elements behind it
then move one place forward, and the index is increased in any case.
-/
namespace MessageBroker.RemovalLoop

variable {α : Type*}

/-- `k` times from index `i` on an element is overwritten by the next. -/
def overwrite [Inhabited α] : ℕ → ℕ → List α → List α
  | _, 0, l => l
  | i, k + 1, l => overwrite (i + 1) k (l.set i (l.getD (i + 1) default))

/-- The elements behind index `i` are moved over it and the last one is given up. -/
def removeAt [Inhabited α] (i : ℕ) (l : List α) : List α :=
  (overwrite i (l.length - 1 - i) l).dropLast

theorem overwrite_dropLast [Inhabited α] (pre : List α) (a : α) (post : List α) :
    (overwrite pre.length post.length (pre ++ a :: post)).dropLast = pre ++ post := by
  induction post generalizing pre a with
  | nil => simp [overwrite]
  | cons b post ih =>
    have hnext : (pre ++ a :: b :: post).getD (pre.length + 1) default = b := by simp
    have hset : (pre ++ a :: b :: post).set pre.length b = (pre ++ [b]) ++ b :: post := by simp
    rw [List.length_cons, overwrite, hnext, hset]
    have h := ih (pre ++ [b]) b
    rw [List.length_append, List.length_singleton] at h
    rw [h, List.append_assoc, List.singleton_append]

theorem removeAt_append [Inhabited α] (pre : List α) (a : α) (post : List α) :
    removeAt pre.length (pre ++ a :: post) = pre ++ post := by
  have hcount : (pre ++ a :: post).length - 1 - pre.length = post.length := by
    rw [List.length_append, List.length_cons]
    omega
  rw [removeAt, hcount, overwrite_dropLast]

theorem removeAt_eq_eraseIdx [Inhabited α] {i : ℕ} {l : List α} (h : i < l.length) :
    removeAt i l = l.eraseIdx i := by
  have hlen : (l.take i).length = i := List.length_take_of_le (Nat.le_of_lt h)
  have hsplit : l = l.take i ++ l[i] :: l.drop (i + 1) := by simp
  have hremoved := removeAt_append (l.take i) l[i] (l.drop (i + 1))
  rw [← hsplit, hlen] at hremoved
  rw [hremoved, List.eraseIdx_eq_take_drop_succ]

theorem filter_ne_append [DecidableEq α] {pre post : List α} {a : α}
    (h : (pre ++ a :: post).Nodup) : (pre ++ a :: post).filter (· ≠ a) = pre ++ post := by
  rw [List.perm_middle.nodup_iff, List.nodup_cons, List.mem_append, not_or] at h
  obtain ⟨⟨hpre, hpost⟩, -⟩ := h
  have hkeep {l : List α} (hl : a ∉ l) : l.filter (· ≠ a) = l := by
    apply List.filter_eq_self.mpr
    intro b hb
    exact decide_eq_true (fun he => hl (he ▸ hb))
  rw [List.filter_append, List.filter_cons_of_neg (by simp), hkeep hpre, hkeep hpost]

/-- Where an element stands after another one has been taken out. -/
theorem idxOf_append_cons [DecidableEq α] (pre post : List α) {a b : α} (hne : b ≠ a) :
    ((pre ++ a :: post).idxOf b < pre.length ∧
      (pre ++ post).idxOf b = (pre ++ a :: post).idxOf b) ∨
    (pre.length ≤ (pre ++ post).idxOf b ∧
      (pre ++ a :: post).idxOf b = (pre ++ post).idxOf b + 1) := by
  by_cases hpre : b ∈ pre
  · left
    rw [List.idxOf_append_of_mem hpre, List.idxOf_append_of_mem hpre]
    exact ⟨List.idxOf_lt_length_of_mem hpre, rfl⟩
  · right
    rw [List.idxOf_append_of_notMem hpre, List.idxOf_append_of_notMem hpre,
      List.idxOf_cons_ne _ hne.symm]
    omega

variable (ready removes : α → Bool)

/-- The elements that are visited; `skip` says that the index has already passed the first one. -/
def visited : Bool → List α → List α
  | _, [] => []
  | true, _ :: l => visited false l
  | false, a :: l => if ready a then a :: visited (removes a) l else visited false l

/-- The list when the loop ends. -/
def remaining : Bool → List α → List α
  | _, [] => []
  | true, a :: l => a :: remaining false l
  | false, a :: l =>
    if ready a then (if removes a then remaining true l else a :: remaining false l)
    else a :: remaining false l

variable {ready removes}

theorem visited_sublist (skip : Bool) (l : List α) :
    (visited ready removes skip l).Sublist l := by
  induction l generalizing skip with
  | nil => cases skip <;> exact List.Sublist.refl _
  | cons a l ih =>
    cases skip with
    | true => exact (ih false).cons a
    | false =>
      rw [visited]
      split_ifs
      · exact (ih _).cons_cons a
      · exact (ih false).cons a

theorem ready_of_mem_visited {skip : Bool} {l : List α} {a : α}
    (h : a ∈ visited ready removes skip l) : ready a = true := by
  induction l generalizing skip with
  | nil => cases skip <;> cases h
  | cons b l ih =>
    cases skip with
    | true => exact ih h
    | false =>
      rw [visited] at h
      split_ifs at h with hb
      · rcases List.mem_cons.mp h with rfl | h
        · exact hb
        · exact ih h
      · exact ih h

theorem mem_visited_head {a : α} {l : List α} (h : ready a = true) :
    a ∈ visited ready removes false (a :: l) := by
  rw [visited, if_pos h]
  exact List.mem_cons_self

theorem notMem_visited_iff_of_split {skip : Bool} {pre post : List α} {d c : α}
    (hnodup : (pre ++ d :: c :: post).Nodup) (hc : ready c = true) :
    c ∉ visited ready removes skip (pre ++ d :: c :: post) ↔
      d ∈ visited ready removes skip (pre ++ d :: c :: post) ∧ removes d = true := by
  induction pre generalizing skip with
  | nil =>
    rw [List.nil_append, List.nodup_cons] at hnodup
    obtain ⟨hd, hcpost⟩ := hnodup
    have hdvisited : ∀ s, d ∉ visited ready removes s (c :: post) :=
      fun s hmem => hd ((visited_sublist s _).subset hmem)
    have hcvisited : c ∈ visited ready removes false (c :: post) := mem_visited_head hc
    have hskipped : c ∉ visited ready removes true (c :: post) :=
      fun hmem => (List.nodup_cons.mp hcpost).1 ((visited_sublist false _).subset hmem)
    have hdc : c ≠ d := fun he => hd (he ▸ List.mem_cons_self)
    rw [List.nil_append]
    cases skip with
    | true => exact iff_of_false (fun h => h hcvisited) (fun h => hdvisited false h.1)
    | false =>
      rw [visited]
      split_ifs with hready
      · rw [List.mem_cons, not_or, and_iff_right hdc, and_iff_right List.mem_cons_self]
        cases removes d with
        | true => exact iff_of_true hskipped rfl
        | false => exact iff_of_false (fun h => h hcvisited) Bool.false_ne_true
      · exact iff_of_false (fun h => h hcvisited) (fun h => hdvisited false h.1)
  | cons e pre ih =>
    rw [List.cons_append, List.nodup_cons] at hnodup
    obtain ⟨he, hrest⟩ := hnodup
    have hde : d ≠ e := fun h => he (h ▸ by simp)
    have hce : c ≠ e := fun h => he (h ▸ by simp)
    rw [List.cons_append]
    cases skip with
    | true => exact ih hrest
    | false =>
      rw [visited]
      split_ifs
      · rw [List.mem_cons, List.mem_cons, or_iff_right hde, or_iff_right hce]
        exact ih hrest
      · exact ih hrest

/-- What is ready is passed over exactly if its predecessor was visited and removed. -/
theorem notMem_visited_iff {l : List α} (hnodup : l.Nodup) {c : α} (hmem : c ∈ l)
    (hc : ready c = true) : c ∉ visited ready removes false l ↔
      ∃ d, [d, c] <:+: l ∧ d ∈ visited ready removes false l ∧ removes d = true := by
  constructor
  · intro hmissed
    obtain ⟨pre, post, rfl⟩ := List.append_of_mem hmem
    rcases List.eq_nil_or_concat pre with rfl | ⟨pre, d, rfl⟩
    · exact absurd (mem_visited_head hc) hmissed
    · rw [List.concat_eq_append, List.append_assoc] at hnodup hmissed ⊢
      exact ⟨d, ⟨pre, post, by simp⟩, (notMem_visited_iff_of_split hnodup hc).mp hmissed⟩
  · rintro ⟨d, ⟨pre, post, rfl⟩, hd⟩
    rw [List.append_assoc] at hnodup hd ⊢
    exact (notMem_visited_iff_of_split hnodup hc).mpr hd

/-- What is left is what was not both visited and removed. -/
theorem mem_remaining_iff {skip : Bool} {l : List α} (hnodup : l.Nodup) {a : α} :
    a ∈ remaining ready removes skip l ↔
      a ∈ l ∧ ¬ (a ∈ visited ready removes skip l ∧ removes a = true) := by
  induction l generalizing skip with
  | nil => cases skip <;> simp [remaining]
  | cons b l ih =>
    obtain ⟨hb, hrest⟩ := List.nodup_cons.mp hnodup
    have hbvisited : ∀ s, b ∉ visited ready removes s l :=
      fun s hmem => hb ((visited_sublist s _).subset hmem)
    cases skip with
    | true =>
      rw [remaining, visited, List.mem_cons, List.mem_cons, ih hrest]
      by_cases hab : a = b
      · subst hab
        simp [hbvisited]
      · simp [hab]
    | false =>
      rw [remaining, visited]
      by_cases hab : a = b
      · subst hab
        split_ifs with hready hremoves
        · simp [hremoves, ih hrest, hb]
        · simp [hremoves]
        · simp [hbvisited]
      · split_ifs with hready hremoves
        · simp [hab, ih hrest, hremoves]
        · simp [hab, ih hrest, hremoves]
        · simp [hab, ih hrest]

end MessageBroker.RemovalLoop
