import Mathlib.Algebra.GroupWithZero.Nat
import Mathlib.Data.List.Nodup

/-!
# Facts about lists

What is known of a place in a list, and of lists without repetitions.
-/
namespace MessageBroker.ListFacts

variable {α β : Type*}

theorem take_append_drop_add (xs ys : List α) {b n : ℕ} (h : b + n ≤ xs.length) :
    (xs.drop b).take n ++ (xs ++ ys).drop (b + n) = (xs ++ ys).drop b := by
  rw [List.drop_append_of_le_length h, List.drop_append_of_le_length (by omega),
    ← List.drop_drop, ← List.append_assoc, List.take_append_drop]

theorem take_succ_of_drop {xs : List α} {n : ℕ} {x : α} {rest : List α}
    (h : xs.drop n = x :: rest) : xs.take (n + 1) = xs.take n ++ [x] := by
  have hn : n < xs.length := by
    by_contra hc
    rw [List.drop_eq_nil_of_le (by omega)] at h
    cases h
  rw [List.drop_eq_getElem_cons hn] at h
  cases h
  rw [List.take_append_getElem]

theorem drop_succ_of_drop {xs : List α} {n : ℕ} {x : α} {rest : List α}
    (h : xs.drop n = x :: rest) : xs.drop (n + 1) = rest := by
  rw [← List.drop_drop, h]
  rfl

theorem getElem?_of_drop {xs : List α} {n : ℕ} {x : α} {rest : List α}
    (h : xs.drop n = x :: rest) : xs[n]? = some x := by
  rw [← List.head?_drop, h, List.head?_cons]

/-- An entry that is replaced, seen from every index. -/
theorem elim_set {xs : List α} {i : ℕ} {x y : α} (h : xs[i]? = some x) (b : β) (f : α → β)
    (j : ℕ) : (xs.set i y)[j]?.elim b f = if i = j then f y else xs[j]?.elim b f := by
  obtain ⟨hlt, -⟩ := List.getElem?_eq_some_iff.mp h
  rw [List.getElem?_set]
  split_ifs
  · rfl
  · rfl

/-- A place at the end of a list, seen from every index. -/
theorem elim_concat (xs : List α) (x : α) (b : β) (f : α → β) (j : ℕ) :
    (xs ++ [x])[j]?.elim b f = if j = xs.length then f x else xs[j]?.elim b f := by
  rcases Nat.lt_trichotomy j xs.length with hlt | rfl | hgt
  · rw [List.getElem?_append_left hlt, if_neg (Nat.ne_of_lt hlt)]
  · rw [List.getElem?_concat_length, if_pos rfl]
    rfl
  · rw [if_neg (Nat.ne_of_gt hgt), List.getElem?_eq_none (Nat.le_of_lt hgt), List.getElem?_eq_none]
    rw [List.length_append]
    exact hgt

/-- Of pairwise different keys at most one is the wanted one. -/
theorem flatMap_ite_of_nodup [DecidableEq α] {keys : List α} (h : keys.Nodup) (a : α)
    (bs : List β) : keys.flatMap (fun x => if a = x then bs else []) =
      if a ∈ keys then bs else [] := by
  induction keys with
  | nil => rfl
  | cons x keys ih =>
    obtain ⟨hx, hkeys⟩ := List.nodup_cons.mp h
    rw [List.flatMap_cons, ih hkeys]
    by_cases hax : a = x
    · subst hax
      simp [hx]
    · simp [hax]

/-- A sum from which one of the terms loses something, or is left out. -/
theorem sum_map_lt {before behind : List α} {a : α} (f f' : α → ℕ)
    (hnodup : (before ++ a :: behind).Nodup) (hlt : f' a < f a) (hother : ∀ b ≠ a, f' b = f b) :
    ((before ++ a :: behind).map f').sum < ((before ++ a :: behind).map f).sum ∧
      ((before ++ behind).map f').sum < ((before ++ a :: behind).map f).sum := by
  rw [List.perm_middle.nodup_iff, List.nodup_cons, List.mem_append, not_or] at hnodup
  obtain ⟨⟨hbefore, hbehind⟩, -⟩ := hnodup
  have hsame {bs : List α} (hbs : a ∉ bs) : bs.map f' = bs.map f := by
    apply List.map_congr_left
    intro b hb
    exact hother b (fun he => hbs (he ▸ hb))
  simp only [List.map_append, List.map_cons, List.sum_append, List.sum_cons, hsame hbefore,
    hsame hbehind]
  omega

end MessageBroker.ListFacts
