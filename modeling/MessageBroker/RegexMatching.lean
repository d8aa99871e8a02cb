import MessageBroker.RegexSyntax
import Mathlib.Computability.Language

/-!
# Matching ECMAScript regular expressions

`outcomes` lists the states a tree can end in, in the order in which the depth-first matcher of
the library tries them; a word matches when one of them is at its end. For trees without
assertions, groups and back references the states are described by a formal language.
-/
namespace MessageBroker.RegexMatching
open ByteStrings RegexSyntax
open Computability

/-- The position in the word, the one where the matcher has started, and the text range of each
capture. -/
structure MatchState where
  pos : ℕ
  origin : ℕ
  captures : ℕ → Option (ℕ × ℕ)

namespace MatchState

def start : MatchState := ⟨0, 0, fun _ => none⟩

def advance (s : MatchState) (n : ℕ) : MatchState := { s with pos := s.pos + n }

def capture (s : MatchState) (k from_ : ℕ) : MatchState :=
  { s with captures := Function.update s.captures k (some (from_, s.pos)) }

@[simp] theorem pos_advance (s : MatchState) (n : ℕ) : (s.advance n).pos = s.pos + n := rfl

end MatchState

/-- Repeats `body` at least `min` and at most `max` times. Without a bound it is tried again only
twice at one position; `tries` says how often it has been. -/
def iterate (body : MatchState → List MatchState) (greedy : Bool) :
    ℕ → ℕ → Option ℕ → ℕ → MatchState → List MatchState
  | 0, _, _, _, _ => []
  | n + 1, min + 1, max, tries, s =>
    (body s).flatMap (iterate body greedy n min (max.map (· - 1)) tries)
  | n + 1, 0, max, tries, s =>
    let more := match max with
      | some 0 => []
      | some (m + 1) => (body s).flatMap (iterate body greedy n 0 (some m) tries)
      | none =>
        if tries < 2 then (body s).flatMap (fun s' =>
          iterate body greedy n 0 none (if s'.pos = s.pos then tries + 1 else 0) s')
        else []
    if greedy then more ++ [s] else s :: more

def isWordAt (w : Bytes) (i : ℕ) : Bool := (w[i]?.map ClassName.word.mem).getD false

/-- Whether exactly one of the two neighbours of a position is a word character. In front of
`origin` there is none. -/
def atWordBoundary (w : Bytes) (origin i : ℕ) : Bool :=
  (decide (i ≠ origin) && isWordAt w (i - 1)) != isWordAt w i

def outcomes (w : Bytes) : Node → MatchState → List MatchState
  | .empty, s => [s]
  | .set cs, s => if (w[s.pos]?.map cs.mem).getD false then [s.advance 1] else []
  | .seq a b, s => (outcomes w a s).flatMap (outcomes w b)
  | .alt a b, s => outcomes w a s ++ outcomes w b s
  | .group k a, s => (outcomes w a s).map (fun s' => s'.capture k s.pos)
  | .backref k, s => match s.captures k with
    | none => []
    | some (i, j) =>
      if (w.drop i).take (j - i) <+: w.drop s.pos then [s.advance (j - i)] else []
  | .rep min max greedy a, s =>
    iterate (outcomes w a) greedy (min + max.getD 0 + 2 * (w.length - s.pos) + 3) min max 0 s
  | .bol, s => if s.pos = s.origin then [s] else []
  | .eol, s => if s.pos = w.length then [s] else []
  | .wordBoundary negated, s => if atWordBoundary w s.origin s.pos != negated then [s] else []
  | .look false a, s => match outcomes w a { s with origin := s.pos } with
    | [] => []
    | s' :: _ => [{ s with captures := s'.captures }]
  | .look true a, s => if (outcomes w a { s with origin := s.pos }).isEmpty then [s] else []

/-- `std::regex_match`: the whole word has to match. -/
def regexMatch (w : Bytes) (a : Node) : Bool :=
  (outcomes w a .start).any (fun s => decide (s.pos = w.length))

theorem regexMatch_iff (w : Bytes) (a : Node) :
    regexMatch w a = true ↔ ∃ s ∈ outcomes w a .start, s.pos = w.length := by
  simp [regexMatch]

/-- From every position and with any captures, `a` moves over exactly the words
of `L` that follow the position. -/
def Denotes (a : Node) (L : Language UInt8) : Prop :=
  ∀ (u x : Bytes) (s : MatchState), s.pos = u.length → ∀ j,
    (∃ s' ∈ outcomes (u ++ x) a s, s'.pos = j) ↔ ∃ v ∈ L, v <+: x ∧ j = u.length + v.length

/-- From every position, `a` can reach the end exactly when what is left is in `L`. -/
def DenotesRest (a : Node) (L : Language UInt8) : Prop :=
  ∀ (u x : Bytes) (s : MatchState), s.pos = u.length →
    ((∃ s' ∈ outcomes (u ++ x) a s, s'.pos = (u ++ x).length) ↔ x ∈ L)

/-- The words of one character of the set. -/
def CharSet.language (cs : CharSet) : Language UInt8 := { v | ∃ c, cs.mem c = true ∧ v = [c] }

theorem denotes_set (cs : CharSet) : Denotes (.set cs) (CharSet.language cs) := by
  intro u x s hs j
  have hget : (u ++ x)[s.pos]? = x.head? := by
    rw [hs, List.getElem?_append_right (Nat.le_refl _), Nat.sub_self, List.head?_eq_getElem?]
  rw [outcomes, hget]
  cases x with
  | nil =>
    constructor
    · simp
    · rintro ⟨v, ⟨c, -, rfl⟩, hp, -⟩
      simp at hp
  | cons c x =>
    constructor
    · intro h
      by_cases hc : cs.mem c = true
      · obtain ⟨s', hs', rfl⟩ := h
        have he : s' = s.advance 1 := by simpa [hc] using hs'
        exact ⟨[c], ⟨c, hc, rfl⟩, by simp, by simp [he, hs]⟩
      · simp [hc] at h
    · rintro ⟨v, ⟨d, hd, rfl⟩, hp, rfl⟩
      have hdc : d = c := by simpa using hp
      subst hdc
      exact ⟨s.advance 1, by simp [hd], by simp [hs]⟩

theorem Denotes.seq {a b : Node} {L M : Language UInt8} (ha : Denotes a L)
    (hb : DenotesRest b M) : DenotesRest (.seq a b) (L * M) := by
  intro u x s hs
  simp only [outcomes, List.mem_flatMap]
  constructor
  · rintro ⟨s₂, ⟨s₁, h₁, h₂⟩, hend⟩
    obtain ⟨v, hv, ⟨y, rfl⟩, hj⟩ := (ha u x s hs s₁.pos).mp ⟨s₁, h₁, rfl⟩
    have hy := (hb (u ++ v) y s₁ (by simp [hj])).mp ⟨s₂, by simpa using h₂, by simpa using hend⟩
    exact Language.mem_mul.mpr ⟨v, hv, y, hy, rfl⟩
  · intro hx
    obtain ⟨v, hv, y, hy, rfl⟩ := Language.mem_mul.mp hx
    obtain ⟨s₁, h₁, hj⟩ := (ha u (v ++ y) s hs (u.length + v.length)).mpr
      ⟨v, hv, List.prefix_append v y, rfl⟩
    obtain ⟨s₂, h₂, hend⟩ := (hb (u ++ v) y s₁ (by simp [hj])).mpr hy
    exact ⟨s₂, ⟨s₁, h₁, by simpa using h₂⟩, by simpa using hend⟩

theorem denotesRest_eol : DenotesRest (.seq .eol .empty) 1 := by
  intro u x s hs
  simp only [outcomes, List.mem_flatMap, Language.mem_one]
  constructor
  · rintro ⟨s₂, ⟨s₁, h₁, -⟩, -⟩
    have hlen : u.length = u.length + x.length ∧ s₁ = s := by simpa [hs] using h₁
    exact List.length_eq_zero_iff.mp (by omega)
  · rintro rfl
    exact ⟨s, ⟨s, by simp [hs], by simp⟩, by simp [hs]⟩

/-- A pattern between `^` and `$` matches the words of its language. -/
theorem DenotesRest.regexMatch {b : Node} {L : Language UInt8} (hb : DenotesRest b L)
    (w : Bytes) : regexMatch w (.seq .bol b) = true ↔ w ∈ L := by
  rw [regexMatch_iff]
  have h := hb [] w .start rfl
  simpa [outcomes, MatchState.start] using h

theorem kstar_cases (L : Language UInt8) (v : Bytes) :
    v ∈ L∗ ↔ v = [] ∨ ∃ a ∈ L, a ≠ [] ∧ ∃ b ∈ L∗, v = a ++ b := by
  constructor
  · intro hv
    obtain ⟨S, rfl, hS⟩ := Language.mem_kstar_iff_exists_nonempty.mp hv
    cases S with
    | nil => exact .inl rfl
    | cons a S =>
      refine .inr ⟨a, (hS a (by simp)).1, (hS a (by simp)).2, S.flatten, ?_, rfl⟩
      exact Language.mem_kstar_iff_exists_nonempty.mpr
        ⟨S, rfl, fun y hy => hS y (List.mem_cons_of_mem a hy)⟩
  · rintro (rfl | ⟨a, ha, -, b, hb, rfl⟩)
    · exact Language.nil_mem_kstar L
    · obtain ⟨S, rfl, hS⟩ := Language.mem_kstar.mp hb
      refine Language.mem_kstar.mpr ⟨a :: S, rfl, ?_⟩
      intro y hy
      rcases List.mem_cons.mp hy with rfl | hy
      · exact ha
      · exact hS y hy

variable {a : Node} {L : Language UInt8} {greedy : Bool}

/-- The states of an iteration past its required rounds: another round, or the end of it. -/
theorem mem_iterate_zero (body : MatchState → List MatchState) (n tries : ℕ)
    (s s' : MatchState) :
    s' ∈ iterate body greedy (n + 1) 0 none tries s ↔
      s' = s ∨ tries < 2 ∧ ∃ s₁ ∈ body s,
        s' ∈ iterate body greedy n 0 none (if s₁.pos = s.pos then tries + 1 else 0) s₁ := by
  by_cases h : tries < 2 <;> cases greedy <;> simp [iterate, h, or_comm]

theorem mem_iterate_succ (body : MatchState → List MatchState) (n min tries : ℕ)
    (s s' : MatchState) :
    s' ∈ iterate body greedy (n + 1) (min + 1) none tries s ↔
      ∃ s₁ ∈ body s, s' ∈ iterate body greedy n min none tries s₁ := by
  simp [iterate]

/-- Without an upper bound, an iteration moves over words of `L ^ min * L∗` only. -/
theorem iterate_sound (ha : Denotes a L) (n min tries : ℕ) (u x : Bytes) (s s' : MatchState)
    (hs : s.pos = u.length)
    (h : s' ∈ iterate (outcomes (u ++ x) a) greedy n min none tries s) :
    ∃ v ∈ L ^ min * L∗, v <+: x ∧ s'.pos = u.length + v.length := by
  induction n generalizing min tries u x s with
  | zero => simp [iterate] at h
  | succ n ih =>
    have hround (m t : ℕ) (s₁ : MatchState) (h₁ : s₁ ∈ outcomes (u ++ x) a s)
        (h' : s' ∈ iterate (outcomes (u ++ x) a) greedy n m none t s₁) :
        ∃ v ∈ L * (L ^ m * L∗), v <+: x ∧ s'.pos = u.length + v.length := by
      obtain ⟨v, hv, ⟨y, rfl⟩, hj⟩ := (ha u x s hs s₁.pos).mp ⟨s₁, h₁, rfl⟩
      obtain ⟨w, hw, hp, hj'⟩ := ih m t (u ++ v) y s₁ (by simp [hj]) (by simpa using h')
      exact ⟨v ++ w, Language.mem_mul.mpr ⟨v, hv, w, hw, rfl⟩,
        (List.prefix_append_right_inj v).mpr hp, by simp [hj', Nat.add_assoc]⟩
    cases min with
    | zero =>
      rcases (mem_iterate_zero _ n tries s s').mp h with rfl | ⟨-, s₁, h₁, h'⟩
      · exact ⟨[], by simp [Language.nil_mem_kstar], List.nil_prefix, by simp [hs]⟩
      · obtain ⟨v, hv, hp, hj⟩ := hround 0 _ s₁ h₁ h'
        rw [pow_zero, one_mul] at hv ⊢
        exact ⟨v, (mul_kstar_le_kstar : L * L∗ ≤ L∗) hv, hp, hj⟩
    | succ min =>
      obtain ⟨s₁, h₁, h'⟩ := (mem_iterate_succ _ n min tries s s').mp h
      rw [pow_succ', mul_assoc]
      exact hround min tries s₁ h₁ h'

/-- It moves over all of them. The fuel pays for the required rounds and for one round for each
character left, in which the position changes. -/
theorem iterate_complete (ha : Denotes a L) (n min : ℕ) (u v y : Bytes) (s : MatchState)
    (hs : s.pos = u.length) (hv : v ∈ L ^ min * L∗) (hn : min + v.length < n) :
    ∃ s' ∈ iterate (outcomes (u ++ (v ++ y)) a) greedy n min none 0 s,
      s'.pos = u.length + v.length := by
  induction n generalizing min u v s with
  | zero => omega
  | succ n ih =>
    have hround (m : ℕ) (p w : Bytes) (hp : p ∈ L) (hw : w ∈ L ^ m * L∗) (hvp : v = p ++ w)
        (hm : m + w.length < n) : ∃ s₁ ∈ outcomes (u ++ (v ++ y)) a s,
          s₁.pos = u.length + p.length ∧
          ∃ s' ∈ iterate (outcomes (u ++ (v ++ y)) a) greedy n m none 0 s₁,
            s'.pos = u.length + v.length := by
      obtain ⟨s₁, h₁, hj⟩ := (ha u (v ++ y) s hs (u.length + p.length)).mpr
        ⟨p, hp, by simp [hvp], rfl⟩
      obtain ⟨s', hs', hj'⟩ := ih m (u ++ p) w s₁ (by simp [hj]) hw hm
      exact ⟨s₁, h₁, hj, s', by simpa [hvp] using hs', by simp [hj', hvp, Nat.add_assoc]⟩
    cases min with
    | zero =>
      rw [pow_zero, one_mul] at hv
      rcases (kstar_cases L v).mp hv with rfl | ⟨p, hp, hp0, w, hw, rfl⟩
      · exact ⟨s, (mem_iterate_zero _ n 0 s s).mpr (.inl rfl), by simp [hs]⟩
      · have hlen := List.length_pos_iff.mpr hp0
        rw [List.length_append] at hn
        obtain ⟨s₁, h₁, hj, s', hs', hj'⟩ := hround 0 p w hp (by simpa using hw) rfl (by omega)
        have hne : s₁.pos ≠ s.pos := by omega
        exact ⟨s', (mem_iterate_zero _ n 0 s s').mpr
          (.inr ⟨by omega, s₁, h₁, by rwa [if_neg hne]⟩), hj'⟩
    | succ min =>
      rw [pow_succ', mul_assoc] at hv
      obtain ⟨p, hp, w, hw, rfl⟩ := Language.mem_mul.mp hv
      rw [List.length_append] at hn
      obtain ⟨s₁, h₁, -, s', hs', hj'⟩ := hround min p w hp hw rfl (by omega)
      exact ⟨s', (mem_iterate_succ _ n min 0 s s').mpr ⟨s₁, h₁, hs'⟩, hj'⟩

theorem Denotes.rep (ha : Denotes a L) (min : ℕ) :
    Denotes (.rep min none greedy a) (L ^ min * L∗) := by
  intro u x s hs j
  rw [outcomes]
  constructor
  · rintro ⟨s', hs', rfl⟩
    exact iterate_sound ha _ min 0 u x s s' hs hs'
  · rintro ⟨v, hv, ⟨y, rfl⟩, rfl⟩
    exact iterate_complete ha _ min u v y s hs hv (by simp [hs]; omega)

/-- Repeating a set gives the words over it. -/
theorem mem_language_kstar (cs : CharSet) (v : Bytes) :
    v ∈ (CharSet.language cs)∗ ↔ ∀ c ∈ v, cs.mem c = true := by
  induction v with
  | nil => simp [Language.nil_mem_kstar]
  | cons c v ih =>
    rw [kstar_cases]
    constructor
    · rintro (h | ⟨_, ⟨d, hd, rfl⟩, -, b, hb, he⟩)
      · cases h
      · obtain ⟨rfl, rfl⟩ : c = d ∧ v = b := by simpa using he
        simpa [hd] using ih.mp hb
    · intro h
      exact .inr ⟨[c], ⟨c, h c (by simp), rfl⟩, by simp, v,
        ih.mpr (fun d hd => h d (List.mem_cons_of_mem c hd)), rfl⟩

theorem mem_language_plus (cs : CharSet) (v : Bytes) :
    v ∈ CharSet.language cs ^ 1 * (CharSet.language cs)∗ ↔
      v ≠ [] ∧ ∀ c ∈ v, cs.mem c = true := by
  rw [pow_one, Language.mem_mul]
  constructor
  · rintro ⟨_, ⟨c, hc, rfl⟩, w, hw, rfl⟩
    simpa [hc] using (mem_language_kstar cs w).mp hw
  · rintro ⟨hv, h⟩
    obtain ⟨c, w, rfl⟩ := List.exists_cons_of_ne_nil hv
    exact ⟨[c], ⟨c, h c (by simp), rfl⟩, w,
      (mem_language_kstar cs w).mpr (fun d hd => h d (List.mem_cons_of_mem c hd)), rfl⟩

end MessageBroker.RegexMatching
