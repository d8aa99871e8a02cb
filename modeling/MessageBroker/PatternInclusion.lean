import MessageBroker.HandlerOutcomes
import MessageBroker.TopicMetacharacters

/-!
# Patterns inside other patterns

A pattern is inside another one when every datagram that the first one matches is matched by
the second one. For a pattern without `*` the matcher itself decides it: the second pattern is
tried on the first one as if that were a topic.
-/
namespace MessageBroker.PatternInclusion
open ByteStrings WireFormat RegexSyntax TopicMatching TopicMetacharacters HandlerOutcomes

/-- A `*` skips no line terminator, so a `+` matches topics that no `*` does. -/
def Clean (topic : Bytes) : Prop := ∀ c ∈ topic, ¬ LineTerminator c

instance (topic : Bytes) : Decidable (Clean topic) :=
  inferInstanceAs (Decidable (∀ c ∈ topic, ¬ (c = 10 ∨ c = 13)))

/-- Every datagram that `p` matches is matched by `q`. -/
def Includes (q p : Bytes) : Prop :=
  ∀ data, Clean (datagramTopic data) → matching (datagramTopic data) p = true →
    matching (datagramTopic data) q = true

/-- Without a `*` a run that a `+` can take stays one when its wildcards are filled in. -/
theorem run_of_fills {r t : Bytes} (h : Fills r t) (hstar : byte '*' ∉ r) (hne : r ≠ [])
    (hslash : byte '/' ∉ r) : t ≠ [] ∧ byte '/' ∉ t := by
  have hfree : byte '/' ∉ t := by
    clear hne
    induction h with
    | nil => exact hslash
    | plus u hu hs _ ih =>
      have hrest := ih (fun hm => hstar (List.mem_cons_of_mem _ hm))
        (fun hm => hslash (List.mem_cons_of_mem _ hm))
      simpa using ⟨hs, hrest⟩
    | star u hu _ _ => exact absurd List.mem_cons_self hstar
    | literal c hp hs _ ih =>
      have hrest := ih (fun hm => hstar (List.mem_cons_of_mem _ hm))
        (fun hm => hslash (List.mem_cons_of_mem _ hm))
      have hc : byte '/' ≠ c := fun he => hslash (he ▸ List.mem_cons_self)
      simpa using ⟨hc, hrest⟩
  refine ⟨?_, hfree⟩
  cases h with
  | nil => exact absurd rfl hne
  | plus u hu hs h => simpa using fun he => absurd he hu
  | star u hu h => exact absurd List.mem_cons_self hstar
  | literal c hp hs h => exact List.cons_ne_nil _ _

/-- Each wildcard of the outer pattern takes what the wildcards in its run take. -/
theorem fills_trans {q p t : Bytes} (hq : Fills q p) (hstar : byte '*' ∉ p) (hp : Fills p t) :
    Fills q t := by
  induction hq generalizing t with
  | nil => exact hp
  | plus r hr hs _ ih =>
    simp only [List.mem_append, not_or] at hstar
    obtain ⟨u, v, rfl, hu, hv⟩ := hp.append_inv
    obtain ⟨hne, hslash⟩ := run_of_fills hu hstar.1 hr hs
    exact .plus u hne hslash (ih hstar.2 hv)
  | star r hr _ ih =>
    simp only [List.mem_append, not_or] at hstar
    obtain ⟨u, v, rfl, hu, hv⟩ := hp.append_inv
    exact .star u (fun _ _ => trivial) (ih hstar.2 hv)
  | literal c hplus hs _ ih =>
    cases hp with
    | plus => exact absurd rfl hplus
    | star => exact absurd rfl hs
    | literal _ _ _ hp => exact .literal c hplus hs (ih (List.not_mem_of_not_mem_cons hstar) hp)

/-- A wildcard takes itself. -/
theorem fills_self (p : Bytes) : Fills p p := by
  induction p with
  | nil => exact .nil
  | cons c p ih =>
    by_cases hplus : c = byte '+'
    · rw [hplus]
      exact .plus [byte '+'] (by decide) (by decide) ih
    · by_cases hstar : c = byte '*'
      · rw [hstar]
        exact .star [byte '*'] (fun _ _ => trivial) ih
      · exact .literal c hplus hstar ih

private theorem matching_iff_fills {p t : Bytes} (hp : Plain p) (ht : Clean t) :
    matching t p = true ↔ Fills p t := by
  obtain ⟨b, hb, hiff⟩ := matchesTopic_fills hp ht
  rw [matching, hb]
  exact hiff

private theorem clean_of_word {p : Bytes} (hw : Word p) : Clean p := by
  rintro c hc (rfl | rfl)
  · exact absurd (hw _ hc).2 (by decide)
  · exact absurd (hw _ hc).2 (by decide)

/-- A datagram can carry a short pattern as its topic. -/
theorem datagramTopic_of_word {p : Bytes} (hw : Word p) (hlen : p.length ≤ 50) :
    datagramTopic p = p := by
  rw [datagramTopic, List.take_of_length_le hlen]
  exact untilNul_of_notMem (fun hz => (hw 0 hz).1 rfl)

theorem includes_of_matching {p q : Bytes} (hp : Plain p) (hq : Plain q) (hw : Word p)
    (hstar : byte '*' ∉ p) (h : matching p q = true) : Includes q p := by
  intro data hclean hm
  have hinner := (matching_iff_fills hp hclean).mp hm
  have houter := (matching_iff_fills hq (clean_of_word hw)).mp h
  exact (matching_iff_fills hq hclean).mpr (fills_trans houter hstar hinner)

/-- For plain patterns, the inner one short and without `*`, the inclusion is what the outer one
gives on the text of the inner one. -/
theorem inclusion_decided {p q : Bytes} (hp : Plain p) (hq : Plain q) (hw : Word p)
    (hstar : byte '*' ∉ p) (hlen : p.length ≤ 50) : Includes q p ↔ matching p q = true := by
  constructor
  · intro h
    have htopic := datagramTopic_of_word hw hlen
    have hself := (matching_iff_fills hp (clean_of_word hw)).mpr (fills_self p)
    have hall := h p
    rw [htopic] at hall
    exact hall (clean_of_word hw) hself
  · exact includes_of_matching hp hq hw hstar

theorem inclusion_decided_levels :
    Includes (ascii "upb/precis/100/*") (ascii "upb/precis/100/+") ∧
    ¬ Includes (ascii "upb/+/100") (ascii "upb/precis/100/+") := by
  constructor
  · exact (inclusion_decided (by decide +kernel) (by decide +kernel) (by decide +kernel)
      (by decide +kernel) (by decide +kernel)).mpr (by decide +kernel)
  · intro h
    have hmatch := (inclusion_decided (by decide +kernel) (by decide +kernel) (by decide +kernel)
      (by decide +kernel) (by decide +kernel)).mp h
    exact absurd hmatch (by decide +kernel)

end MessageBroker.PatternInclusion
