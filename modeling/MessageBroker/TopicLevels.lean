import MessageBroker.TopicMatching

/-!
# Wildcards level by level

The levels of a topic are the parts between its slashes. Filling in the wildcards of
a pattern whose levels are literal, `+` or `*` consumes the levels of the topic.
-/
namespace MessageBroker.TopicLevels
open ByteStrings RegexSyntax TopicMatching

def levels (bs : Bytes) : List Bytes := bs.splitOn (byte '/')

/-- A character of the alphabet of literal levels. -/
def LevelChar (c : UInt8) : Prop := ClassName.word.mem c = true

instance (c : UInt8) : Decidable (LevelChar c) := by
  unfold LevelChar; infer_instance

/-- A level that is exactly `+`, exactly `*`, or literal. -/
def IsPatternLevel (l : Bytes) : Prop := l = ascii "+" ∨ l = ascii "*" ∨ ∀ c ∈ l, LevelChar c

instance (l : Bytes) : Decidable (IsPatternLevel l) :=
  @instDecidableOr _ _ _ (@instDecidableOr _ _ _ (List.decidableBAll LevelChar l))

/-- Each literal level of the pattern takes one equal level of the topic, each `+` one
nonempty level and each `*` one or more levels. -/
inductive LevelsMatch : List Bytes → List Bytes → Prop
  | nil : LevelsMatch [] []
  | plus {ps ts : List Bytes} (l : Bytes) (hl : l ≠ []) (h : LevelsMatch ps ts) :
      LevelsMatch (ascii "+" :: ps) (l :: ts)
  | star {ps ts : List Bytes} (taken : List Bytes) (ht : taken ≠ []) (h : LevelsMatch ps ts) :
      LevelsMatch (ascii "*" :: ps) (taken ++ ts)
  | literal {ps ts : List Bytes} (w : Bytes) (hp : w ≠ ascii "+") (hs : w ≠ ascii "*")
      (h : LevelsMatch ps ts) : LevelsMatch (w :: ps) (w :: ts)

/-- The levels put back together. -/
def join (ls : List Bytes) : Bytes := [byte '/'].intercalate ls

private theorem join_levels (bs : Bytes) :
    join (levels bs) = bs := List.intercalate_splitOn (byte '/')

private theorem levels_append_slash (a b : Bytes) :
    levels (a ++ byte '/' :: b) = levels a ++ levels b :=
  List.splitOn_append_cons_self a b

private theorem levels_of_notMem {a : Bytes} (h : byte '/' ∉ a) : levels a = [a] :=
  List.splitOn_eq_singleton h

@[simp] theorem join_singleton (l : Bytes) : join [l] = l := by simp [join]

private theorem join_cons (l : Bytes) {ls : List Bytes} (h : ls ≠ []) :
    join (l :: ls) = l ++ byte '/' :: join ls := by
  obtain ⟨m, ms, rfl⟩ := List.exists_cons_of_ne_nil h
  simp [join, List.intercalate]

private theorem join_append {ls ms : List Bytes} (hl : ls ≠ []) (hm : ms ≠ []) :
    join (ls ++ ms) = join ls ++ byte '/' :: join ms := by
  induction ls with
  | nil => exact absurd rfl hl
  | cons l ls ih =>
    by_cases h : ls = []
    · subst h
      simpa using join_cons l hm
    · rw [List.cons_append, join_cons l (by simp [h]), ih h, join_cons l h]
      simp

private theorem slash_notMem_of_levelChar {l : Bytes} (h : ∀ c ∈ l, LevelChar c) : byte '/' ∉ l :=
  fun hm => absurd (h _ hm) (by decide)

private theorem slash_notMem_levels (t : Bytes) : ∀ l ∈ levels t, byte '/' ∉ l := by
  induction hn : t.length using Nat.strong_induction_on generalizing t with
  | _ n ih =>
    intro l hl
    by_cases h : byte '/' ∈ t
    · obtain ⟨a, b, rfl⟩ := List.append_of_mem h
      simp only [List.length_append, List.length_cons] at hn
      rw [levels_append_slash] at hl
      rcases List.mem_append.mp hl with hl | hl
      · exact ih a.length (by omega) a rfl l hl
      · exact ih b.length (by omega) b rfl l hl
    · rw [levels_of_notMem h, List.mem_singleton] at hl
      exact hl ▸ h

private theorem levels_join {ls : List Bytes} (h : ls ≠ []) (hs : ∀ l ∈ ls, byte '/' ∉ l) :
    levels (join ls) = ls :=
  List.splitOn_intercalate (byte '/') hs h

private theorem levels_ne_nil (t : Bytes) : levels t ≠ [] := List.splitOn_ne_nil (byte '/') t

private theorem levels_eq_singleton_iff (t l : Bytes) : levels t = [l] ↔ t = l ∧ byte '/' ∉ t := by
  constructor
  · intro h
    have ht := join_levels t
    rw [h, join_singleton] at ht
    subst ht
    exact ⟨rfl, slash_notMem_levels l l (by simp [h])⟩
  · rintro ⟨rfl, h⟩
    exact levels_of_notMem h

theorem LevelsMatch.append {ps qs ts us : List Bytes} (h : LevelsMatch ps ts)
    (h' : LevelsMatch qs us) : LevelsMatch (ps ++ qs) (ts ++ us) := by
  induction h with
  | nil => exact h'
  | plus l hl _ ih => exact .plus l hl ih
  | star taken ht _ ih => simpa using LevelsMatch.star taken ht ih
  | literal w hp hs _ ih => exact .literal w hp hs ih

/-- The first pattern level takes a nonempty first part of the levels. -/
theorem LevelsMatch.cons_inv {p : Bytes} {ps ts : List Bytes} (h : LevelsMatch (p :: ps) ts) :
    ∃ taken us, ts = taken ++ us ∧ taken ≠ [] ∧ LevelsMatch [p] taken ∧ LevelsMatch ps us := by
  cases h with
  | plus l hl h => exact ⟨[l], _, rfl, by simp, .plus l hl .nil, h⟩
  | star taken ht h =>
    exact ⟨taken, _, rfl, ht, by simpa using LevelsMatch.star taken ht .nil, h⟩
  | literal _ hp hs h => exact ⟨[p], _, rfl, by simp, .literal p hp hs .nil, h⟩

theorem LevelsMatch.ne_nil {ps ts : List Bytes} (h : LevelsMatch ps ts) (hp : ps ≠ []) :
    ts ≠ [] := by
  obtain ⟨p, ps, rfl⟩ := List.exists_cons_of_ne_nil hp
  obtain ⟨taken, us, rfl, ht, -, -⟩ := h.cons_inv
  simp [ht]

private theorem fills_plus_iff (t : Bytes) : Fills (ascii "+") t ↔ t ≠ [] ∧ byte '/' ∉ t := by
  constructor
  · rintro (_ | ⟨r, hr, hs, ⟨⟩⟩ | _ | ⟨_, h, _, _⟩)
    · simpa using ⟨hr, hs⟩
    · exact absurd rfl h
  · rintro ⟨hne, hs⟩
    have h := FillsIn.plus (S := fun _ => True) t hne hs .nil
    rw [List.append_nil] at h
    exact h

private theorem fills_star (t : Bytes) : Fills (ascii "*") t := by
  have h := FillsIn.star (S := fun _ => True) t (fun _ _ => trivial) .nil
  rw [List.append_nil] at h
  exact h

private theorem wildcards_notMem {l : Bytes} (h : ∀ c ∈ l, LevelChar c) :
    byte '+' ∉ l ∧ byte '*' ∉ l :=
  ⟨fun hm => absurd (h _ hm) (by decide), fun hm => absurd (h _ hm) (by decide)⟩

private theorem levelsMatch_plus_iff (ts : List Bytes) :
    LevelsMatch [ascii "+"] ts ↔ ∃ l, l ≠ [] ∧ ts = [l] := by
  constructor
  · generalize hp : [ascii "+"] = ps
    rintro (_ | ⟨l, hl, h⟩ | _ | ⟨w, hw, _, _⟩)
    · cases hp
    · obtain rfl : [] = _ := by simpa using hp
      cases h
      exact ⟨l, hl, rfl⟩
    · simp [ascii, byte] at hp
    · exact absurd (List.cons.inj hp).1.symm hw
  · rintro ⟨l, hl, rfl⟩
    exact .plus l hl .nil

/-- Over one level of the pattern, filling in is matching the levels of the topic. -/
theorem fills_level_iff {l : Bytes} (hl : IsPatternLevel l) (t : Bytes) :
    Fills l t ↔ LevelsMatch [l] (levels t) := by
  rcases hl with rfl | rfl | hl
  · rw [fills_plus_iff, levelsMatch_plus_iff]
    simp only [levels_eq_singleton_iff]
    constructor
    · rintro ⟨hne, hs⟩
      exact ⟨t, hne, rfl, hs⟩
    · rintro ⟨_, hne, rfl, hs⟩
      exact ⟨hne, hs⟩
  · refine iff_of_true (fills_star t) ?_
    simpa using LevelsMatch.star (levels t) (levels_ne_nil t) .nil
  · obtain ⟨hplus, hstar⟩ := wildcards_notMem hl
    have hp : l ≠ ascii "+" := by rintro rfl; exact hplus (by decide)
    have hs : l ≠ ascii "*" := by rintro rfl; exact hstar (by decide)
    have hlit : Fills l t ↔ t = l := fillsIn_iff_eq hplus hstar t
    rw [hlit]
    constructor
    · rintro rfl
      rw [levels_of_notMem (slash_notMem_of_levelChar hl)]
      exact .literal t hp hs .nil
    · generalize hts : levels t = ts
      generalize hps : [l] = ps
      rintro (_ | _ | _ | ⟨w, _, _, h⟩)
      · cases hps
      · exact absurd (List.cons.inj hps).1 hp
      · exact absurd (List.cons.inj hps).1 hs
      · obtain ⟨rfl, rfl⟩ : l = w ∧ [] = _ := by simpa using hps
        cases h
        exact ((levels_eq_singleton_iff t l).mp hts).1

private theorem fills_slash_iff (p q t : Bytes) :
    Fills (p ++ byte '/' :: q) t ↔ ∃ u v, t = u ++ byte '/' :: v ∧ Fills p u ∧ Fills q v := by
  have hp : byte '/' ≠ byte '+' := by decide
  have hs : byte '/' ≠ byte '*' := by decide
  constructor
  · intro h
    obtain ⟨u, w, rfl, hu, hw⟩ := h.append_inv
    generalize hq : byte '/' :: q = r at hw
    cases hw with
    | nil => cases hq
    | plus => exact absurd (List.cons.inj hq).1 hp
    | star => exact absurd (List.cons.inj hq).1 hs
    | literal c _ _ h =>
      obtain ⟨rfl, rfl⟩ := List.cons.inj hq
      exact ⟨u, _, rfl, hu, h⟩
  · rintro ⟨u, v, rfl, hu, hv⟩
    exact hu.append (.literal _ hp hs hv)

/-- Filling in the wildcards of the joined levels is matching level by level. The
induction is on the levels of the pattern; the slash behind the first one cuts the
topic where the levels taken by the first one end. -/
theorem fills_join_iff {ps : List Bytes} (hps : ps ≠ []) (hl : ∀ l ∈ ps, IsPatternLevel l)
    (t : Bytes) : Fills (join ps) t ↔ LevelsMatch ps (levels t) := by
  induction ps generalizing t with
  | nil => exact absurd rfl hps
  | cons l ps ih =>
    by_cases hps' : ps = []
    · subst hps'
      rw [join_singleton]
      exact fills_level_iff (hl l (by simp)) t
    · have hlevel := fills_level_iff (hl l (by simp))
      have hrest := ih hps' (fun m hm => hl m (List.mem_cons_of_mem l hm))
      rw [join_cons l hps', fills_slash_iff]
      constructor
      · rintro ⟨u, v, rfl, hu, hv⟩
        rw [levels_append_slash]
        exact ((hlevel u).mp hu).append ((hrest v).mp hv)
      · intro h
        obtain ⟨taken, us, hts, htaken, h₁, h₂⟩ := h.cons_inv
        have hus := h₂.ne_nil hps'
        have hslash := slash_notMem_levels t
        rw [hts] at hslash
        have ht := join_levels t
        rw [hts, join_append htaken hus] at ht
        refine ⟨join taken, join us, ht.symm, (hlevel _).mpr ?_, (hrest _).mpr ?_⟩
        · rwa [levels_join htaken (fun m hm => hslash m (List.mem_append_left us hm))]
        · rwa [levels_join hus (fun m hm => hslash m (List.mem_append_right taken hm))]

private theorem mem_join {c : UInt8} {ls : List Bytes} (h : c ∈ join ls) :
    c = byte '/' ∨ ∃ l ∈ ls, c ∈ l := by
  induction ls with
  | nil => simp [join] at h
  | cons l ls ih =>
    by_cases hls : ls = []
    · subst hls
      exact .inr ⟨l, by simp, by simpa using h⟩
    · rw [join_cons l hls, List.mem_append, List.mem_cons] at h
      rcases h with h | h | h
      · exact .inr ⟨l, by simp, h⟩
      · exact .inl h
      · exact (ih h).imp_right fun ⟨m, hm, hc⟩ => ⟨m, List.mem_cons_of_mem l hm, hc⟩

private theorem levelChar_notMem_metacharacters {c : UInt8} (h : LevelChar c) :
    c ∉ metacharacters := by
  have hall : ∀ d ∈ metacharacters, ¬ LevelChar d := by decide +kernel
  exact fun hm => hall c hm h

private theorem plain_of_levels {p : Bytes} (hp : ∀ l ∈ levels p, IsPatternLevel l) : Plain p := by
  intro c hc
  rw [← join_levels p] at hc
  rcases mem_join hc with rfl | ⟨l, hl, hcl⟩
  · decide
  · rcases hp l hl with rfl | rfl | hlit
    · obtain rfl : c = byte '+' := by simpa [ascii] using hcl
      decide
    · obtain rfl : c = byte '*' := by simpa [ascii] using hcl
      decide
    · exact levelChar_notMem_metacharacters (hlit c hcl)

/-- The function decides whether the levels of the topic match those of the pattern. -/
theorem matchesTopic_iff_levelsMatch {pattern topic : Bytes}
    (hp : ∀ l ∈ levels pattern, IsPatternLevel l)
    (ht : ∀ c ∈ topic, LevelChar c ∨ c = byte '/') :
    ∃ b, matchesTopic topic pattern = .ok b ∧
      (b = true ↔ LevelsMatch (levels pattern) (levels topic)) := by
  have hclean : ∀ c ∈ topic, ¬ LineTerminator c := by
    rintro c hc (rfl | rfl)
    · exact absurd (ht _ hc) (by decide)
    · exact absurd (ht _ hc) (by decide)
  obtain ⟨b, hb, hiff⟩ := matchesTopic_fills (plain_of_levels hp) hclean
  have hlevels := fills_join_iff (levels_ne_nil pattern) hp topic
  rw [join_levels] at hlevels
  exact ⟨b, hb, hiff.trans hlevels⟩

theorem matchesTopic_iff_levelsMatch_compound :
    ∃ b, matchesTopic (ascii "upb/ec/100/schedule/12") (ascii "upb/+/100/*") = .ok b ∧
      (b = true ↔ LevelsMatch (levels (ascii "upb/+/100/*"))
        (levels (ascii "upb/ec/100/schedule/12"))) :=
  matchesTopic_iff_levelsMatch (by decide +kernel) (by decide +kernel)

end MessageBroker.TopicLevels
