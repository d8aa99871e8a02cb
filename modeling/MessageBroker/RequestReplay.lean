import Mathlib.Data.List.Count
import Mathlib.Data.List.Basic

/-!
# Lists kept by appending and erasing

A subscription appends an item to a list and a cancellation erases its first occurrence.
The list is compared with what the last request for each item asked for.
-/
namespace MessageBroker.RequestReplay

variable {α : Type*}

inductive Request (α : Type*)
  | subscribe (p : α)
  | unsubscribe (p : α)
  deriving DecidableEq

def Request.pattern : Request α → α
  | .subscribe p => p
  | .unsubscribe p => p

@[simp] theorem pattern_subscribe (p : α) : (Request.subscribe p).pattern = p := rfl
@[simp] theorem pattern_unsubscribe (p : α) : (Request.unsubscribe p).pattern = p := rfl

section Replay

variable [BEq α]

def apply (items : List α) : Request α → List α
  | .subscribe p => items ++ [p]
  | .unsubscribe p => items.erase p

/-- The list after the requests. -/
def replay (reqs : List (Request α)) : List α := reqs.foldl apply []

theorem replay_concat (reqs : List (Request α)) (r : Request α) :
    replay (reqs ++ [r]) = apply (replay reqs) r := by
  rw [replay, List.foldl_append]
  rfl

end Replay

variable [DecidableEq α]

/-- The last request that names the item is a subscription. -/
def Wanted (reqs : List (Request α)) (p : α) : Prop :=
  (reqs.filter (·.pattern = p)).getLast? = some (.subscribe p)

instance (reqs : List (Request α)) (p : α) : Decidable (Wanted reqs p) :=
  inferInstanceAs (Decidable (_ = _))

/-- Only what is wanted is cancelled. -/
inductive Legal : List (Request α) → Prop
  | nil : Legal []
  | subscribe {reqs : List (Request α)} (h : Legal reqs) (p : α) : Legal (reqs ++ [.subscribe p])
  | unsubscribe {reqs : List (Request α)} (h : Legal reqs) {p : α} (wanted : Wanted reqs p) :
      Legal (reqs ++ [.unsubscribe p])

/-- The item is subscribed to while it is wanted already. -/
inductive Repeated : List (Request α) → α → Prop
  | again {reqs : List (Request α)} {p : α} (wanted : Wanted reqs p) :
      Repeated (reqs ++ [.subscribe p]) p
  | later {reqs : List (Request α)} {p : α} (h : Repeated reqs p) (r : Request α) :
      Repeated (reqs ++ [r]) p

theorem wanted_nil (p : α) : ¬ Wanted [] p := by simp [Wanted]

theorem wanted_concat (reqs : List (Request α)) (r : Request α) (p : α) :
    Wanted (reqs ++ [r]) p ↔ if r.pattern = p then r = .subscribe p else Wanted reqs p := by
  by_cases h : r.pattern = p
  · simp [Wanted, List.filter_append, h]
  · simp [Wanted, List.filter_append, h]

theorem repeated_nil (p : α) : ¬ Repeated [] p := by
  intro h
  generalize hl : ([] : List (Request α)) = l at h
  cases h with
  | again wanted => simp at hl
  | later h r => simp at hl

theorem repeated_concat (reqs : List (Request α)) (r : Request α) (p : α) :
    Repeated (reqs ++ [r]) p ↔ Repeated reqs p ∨ (r = .subscribe p ∧ Wanted reqs p) := by
  constructor
  · intro h
    generalize hl : reqs ++ [r] = l at h
    cases h with
    | again wanted =>
      obtain ⟨rfl, hr⟩ := List.append_inj' hl rfl
      exact .inr ⟨(List.cons.inj hr).1, wanted⟩
    | later h r =>
      obtain ⟨rfl, -⟩ := List.append_inj' hl rfl
      exact .inl h
  · intro h
    rcases h with h | ⟨rfl, wanted⟩
    · exact .later h r
    · exact .again wanted

variable [BEq α] [LawfulBEq α]

/-- Of a wanted item there is an occurrence, and of any item there are more than that exactly
if it was subscribed to again. -/
theorem count_replay {reqs : List (Request α)} (h : Legal reqs) (p : α) :
    (if Wanted reqs p then 1 else 0) ≤ (replay reqs).count p ∧
      ((if Wanted reqs p then 1 else 0) < (replay reqs).count p ↔ Repeated reqs p) := by
  induction h with
  | nil => simp [replay, wanted_nil, repeated_nil]
  | @subscribe reqs _ q ih =>
    rw [replay_concat, repeated_concat, apply, List.count_append]
    by_cases hq : q = p
    · subst hq
      have hwanted : Wanted (reqs ++ [.subscribe q]) q := by
        rw [wanted_concat, if_pos (pattern_subscribe q)]
      rw [if_pos hwanted, List.count_singleton_self, ← ih.2]
      by_cases hbefore : Wanted reqs q
      · rw [if_pos hbefore] at ih ⊢
        simp only [hbefore, and_self, or_true, iff_true]
        omega
      · rw [if_neg hbefore] at ih ⊢
        simp only [hbefore, and_false, or_false]
        omega
    · have hsame : Wanted (reqs ++ [.subscribe q]) p ↔ Wanted reqs p := by
        rw [wanted_concat, if_neg (by simpa using hq)]
      simpa [hsame, hq, List.count_singleton] using ih
  | @unsubscribe reqs _ q wanted ih =>
    rw [replay_concat, repeated_concat, apply]
    by_cases hq : q = p
    · subst hq
      have hgone : ¬ Wanted (reqs ++ [.unsubscribe q]) q := by
        rw [wanted_concat, if_pos (pattern_unsubscribe q)]
        simp
      rw [if_pos wanted] at ih
      rw [if_neg hgone, List.count_erase_self, ← ih.2]
      simp only [reduceCtorEq, false_and, or_false]
      omega
    · have hsame : Wanted (reqs ++ [.unsubscribe q]) p ↔ Wanted reqs p := by
        rw [wanted_concat, if_neg (by simpa using hq)]
      rw [List.count_erase_of_ne (Ne.symm hq)]
      simpa [hsame] using ih

/-- Every cancellation finds an occurrence of its item in the list. -/
inductive Answered : List (Request α) → Prop
  | nil : Answered []
  | subscribe {reqs : List (Request α)} (h : Answered reqs) (p : α) :
      Answered (reqs ++ [.subscribe p])
  | unsubscribe {reqs : List (Request α)} (h : Answered reqs) {p : α} (held : p ∈ replay reqs) :
      Answered (reqs ++ [.unsubscribe p])

theorem count_replay_add {reqs : List (Request α)} (h : Answered reqs) (p : α) :
    (replay reqs).count p + reqs.count (.unsubscribe p) = reqs.count (.subscribe p) := by
  induction h with
  | nil => rfl
  | @subscribe reqs _ q ih =>
    rw [replay_concat, apply, List.count_append, List.count_append, List.count_append]
    by_cases hq : q = p
    · subst hq
      rw [List.count_singleton_self, List.count_singleton_self,
        List.count_eq_zero.mpr (by simp : (Request.unsubscribe q) ∉ [Request.subscribe q])]
      omega
    · rw [List.count_eq_zero.mpr (by simpa using Ne.symm hq : p ∉ [q]),
        List.count_eq_zero.mpr (by simp : (Request.unsubscribe p) ∉ [Request.subscribe q]),
        List.count_eq_zero.mpr
          (by simpa using Ne.symm hq : (Request.subscribe p) ∉ [Request.subscribe q])]
      omega
  | @unsubscribe reqs _ q held ih =>
    rw [replay_concat, apply, List.count_append, List.count_append]
    by_cases hq : q = p
    · subst hq
      have hpos := List.count_pos_iff.mpr held
      rw [List.count_erase_self, List.count_singleton_self,
        List.count_eq_zero.mpr (by simp : (Request.subscribe q) ∉ [Request.unsubscribe q])]
      omega
    · rw [List.count_erase_of_ne (Ne.symm hq),
        List.count_eq_zero.mpr
          (by simpa using Ne.symm hq : (Request.unsubscribe p) ∉ [Request.unsubscribe q]),
        List.count_eq_zero.mpr (by simp : (Request.subscribe p) ∉ [Request.unsubscribe q])]
      omega

/-- An item is left in the list exactly if it was subscribed to more often than cancelled. -/
theorem mem_replay_iff_count {reqs : List (Request α)} (h : Answered reqs) (p : α) :
    p ∈ replay reqs ↔ reqs.count (.unsubscribe p) < reqs.count (.subscribe p) := by
  rw [← count_replay_add h p, ← List.count_pos_iff]
  omega

/-- The list holds what is wanted exactly if everything else was not subscribed to twice. -/
theorem mem_replay_iff {reqs : List (Request α)} (h : Legal reqs) :
    (∀ p, p ∈ replay reqs ↔ Wanted reqs p) ↔ ∀ p, ¬ Wanted reqs p → ¬ Repeated reqs p := by
  apply forall_congr'
  intro p
  obtain ⟨hle, hrepeated⟩ := count_replay h p
  rw [← hrepeated, ← List.count_pos_iff]
  by_cases hwanted : Wanted reqs p
  · rw [if_pos hwanted] at hle
    simp only [hwanted, iff_true, not_true_eq_false, false_imp_iff]
    omega
  · rw [if_neg hwanted]
    simp only [hwanted, iff_false, not_false_eq_true, true_imp_iff]

end MessageBroker.RequestReplay
