import MessageBroker.RegexMatching
import MessageBroker.TransitionRuns

/-!
# Matching a topic against a subscribed pattern

`matchesTopic` splices the pattern into a regular expression. For a pattern
without metacharacters the expression is read back as one piece per character,
and its language is the set of topics got by filling in the wildcards.
-/
namespace MessageBroker.TopicMatching
open ByteStrings RegexSyntax RegexMatching TransitionRuns

/-- `regex_replace` with the expression `\c`: every occurrence of `c` becomes `fmt`. -/
def regexReplace (pattern : Bytes) (c : UInt8) (fmt : Bytes) : Bytes :=
  pattern.flatMap (fun d => if d = c then fmt else [d])

/-- The expression that is handed to `regex`. -/
def fullRegexPattern (pattern : Bytes) : Bytes :=
  let matchOneLevelWildcard := regexReplace pattern (byte '+') (ascii "[^/]+")
  let matchMultiLevelWildcard := regexReplace matchOneLevelWildcard (byte '*') (ascii ".*")
  ascii "^" ++ matchMultiLevelWildcard ++ ascii "$"

/-- The error is the `regex_error` that leaves the function. -/
def matchesTopic (topic pattern : Bytes) : Except RegexError Bool := do
  let patternRegex ← parse (fullRegexPattern pattern)
  .ok (regexMatch topic patternRegex)

/-- `topic` comes from `pattern` by putting a nonempty run without slashes for each
`+` and a run of characters from `S` for each `*`. -/
inductive FillsIn (S : UInt8 → Prop) : Bytes → Bytes → Prop
  | nil : FillsIn S [] []
  | plus {p t : Bytes} (r : Bytes) (hr : r ≠ []) (hs : byte '/' ∉ r) (h : FillsIn S p t) :
      FillsIn S (byte '+' :: p) (r ++ t)
  | star {p t : Bytes} (r : Bytes) (hr : ∀ c ∈ r, S c) (h : FillsIn S p t) :
      FillsIn S (byte '*' :: p) (r ++ t)
  | literal {p t : Bytes} (c : UInt8) (hp : c ≠ byte '+') (hs : c ≠ byte '*')
      (h : FillsIn S p t) : FillsIn S (c :: p) (c :: t)

/-- Only `+` and `*` are special: a `*` stands for a run of arbitrary characters. -/
abbrev Fills : Bytes → Bytes → Prop := FillsIn (fun _ => True)

def LineTerminator (c : UInt8) : Prop := c = 10 ∨ c = 13

/-- The characters with a meaning of their own in a regular expression, the two
wildcards apart. -/
def metacharacters : Bytes :=
  [byte '^', byte '$', byte '\\', byte '.', byte '?', byte '(', byte ')', byte '[', byte '{',
   byte '|']

def Plain (pattern : Bytes) : Prop := ∀ c ∈ pattern, c ∉ metacharacters

instance (pattern : Bytes) : Decidable (Plain pattern) :=
  List.decidableBAll (fun c => c ∉ metacharacters) pattern

theorem FillsIn.mono {S T : UInt8 → Prop} (h : ∀ c, S c → T c) {p t : Bytes}
    (hf : FillsIn S p t) : FillsIn T p t := by
  induction hf with
  | nil => exact .nil
  | plus r hr hs _ ih => exact .plus r hr hs ih
  | star r hr _ ih => exact .star r (fun c hc => h c (hr c hc)) ih
  | literal c hp hs _ ih => exact .literal c hp hs ih

/-- A topic without line terminators only has runs without line terminators. -/
theorem FillsIn.restrict {S T : UInt8 → Prop} {p t : Bytes} (hf : FillsIn S p t)
    (ht : ∀ c ∈ t, S c → T c) : FillsIn T p t := by
  induction hf with
  | nil => exact .nil
  | plus r hr hs _ ih =>
    exact .plus r hr hs (ih (fun c hc => ht c (List.mem_append_right r hc)))
  | star r hr _ ih =>
    exact .star r (fun c hc => ht c (List.mem_append_left _ hc) (hr c hc))
      (ih (fun c hc => ht c (List.mem_append_right r hc)))
  | literal c hp hs _ ih =>
    exact .literal c hp hs (ih (fun d hd => ht d (List.mem_cons_of_mem c hd)))

theorem FillsIn.append {S : UInt8 → Prop} {p q t u : Bytes} (h : FillsIn S p t)
    (h' : FillsIn S q u) : FillsIn S (p ++ q) (t ++ u) := by
  induction h with
  | nil => exact h'
  | plus r hr hs _ ih => simpa using FillsIn.plus r hr hs ih
  | star r hr _ ih => simpa using FillsIn.star r hr ih
  | literal c hp hs _ ih => simpa using FillsIn.literal c hp hs ih

/-- The two parts of a pattern fill in two parts of the topic. -/
theorem FillsIn.append_inv {S : UInt8 → Prop} {p q t : Bytes} (h : FillsIn S (p ++ q) t) :
    ∃ u v, t = u ++ v ∧ FillsIn S p u ∧ FillsIn S q v := by
  induction p generalizing t with
  | nil => exact ⟨[], t, rfl, .nil, h⟩
  | cons c p ih =>
    rw [List.cons_append] at h
    cases h with
    | plus r hr hs h =>
      obtain ⟨u, v, rfl, hu, hv⟩ := ih h
      exact ⟨r ++ u, v, by simp, .plus r hr hs hu, hv⟩
    | star r hr h =>
      obtain ⟨u, v, rfl, hu, hv⟩ := ih h
      exact ⟨r ++ u, v, by simp, .star r hr hu, hv⟩
    | literal _ hp hs h =>
      obtain ⟨u, v, rfl, hu, hv⟩ := ih h
      exact ⟨c :: u, v, rfl, .literal c hp hs hu, hv⟩

/-- A pattern without wildcards is matched by itself alone. -/
theorem fillsIn_iff_eq {S : UInt8 → Prop} {p : Bytes} (hp : byte '+' ∉ p) (hs : byte '*' ∉ p)
    (t : Bytes) : FillsIn S p t ↔ t = p := by
  induction p generalizing t with
  | nil =>
    constructor
    · rintro ⟨⟩; rfl
    · rintro rfl; exact .nil
  | cons c p ih =>
    simp only [List.mem_cons, not_or] at hp hs
    constructor
    · rintro (_ | _ | _ | ⟨_, _, _, h⟩)
      · exact absurd rfl hp.1
      · exact absurd rfl hs.1
      · exact congrArg (c :: ·) ((ih hp.2 hs.2 _).mp h)
    · rintro rfl
      exact .literal c (Ne.symm hp.1) (Ne.symm hs.1) ((ih hp.2 hs.2 p).mpr rfl)

/-- What one pattern character becomes. -/
def piece (c : UInt8) : Bytes :=
  if c = byte '+' then ascii "[^/]+" else if c = byte '*' then ascii ".*" else [c]

def pieceTree (c : UInt8) : Node :=
  if c = byte '+' then .rep 1 none true (.set ⟨true, [.char (byte '/')]⟩)
  else if c = byte '*' then .rep 0 none true (.set .dot)
  else .set (.single c)

/-- The tree between `^` and the end of the expression. -/
def patternTree (p : Bytes) : Node :=
  p.foldr (fun c b => .seq (pieceTree c) b) (.seq .eol .empty)

theorem fullRegexPattern_eq (p : Bytes) :
    fullRegexPattern p = byte '^' :: (p.flatMap piece ++ [byte '$']) := by
  have hp : regexReplace (regexReplace p (byte '+') (ascii "[^/]+")) (byte '*') (ascii ".*") =
      p.flatMap piece := by
    simp only [regexReplace, List.flatMap_assoc]
    congr 1
    funext c
    by_cases h : c = byte '+'
    · subst h; decide
    · simp [piece, h]
  simp only [fullRegexPattern, hp]
  rfl

theorem sym_of_plain {c : UInt8} (hm : c ∉ metacharacters) (hp : c ≠ byte '+')
    (hs : c ≠ byte '*') : sym c = .char c := by
  simp only [metacharacters, List.mem_cons, List.not_mem_nil, or_false, not_or] at hm
  simp [sym, hp, hs, hm]

/-- A character that does not quantify what stands before it. -/
def Ends (c : UInt8) : Prop :=
  sym c ≠ .star ∧ sym c ≠ .plus ∧ sym c ≠ .question ∧ sym c ≠ .lbrace

instance (c : UInt8) : Decidable (Ends c) := by
  unfold Ends; infer_instance

private theorem quantifier_none {d : UInt8} (hd : Ends d) (t : Bytes) :
    quantifier (d :: t) = .ok (none, d :: t) := by
  obtain ⟨h₁, h₂, h₃, h₄⟩ := hd
  rw [quantifier]
  split <;> simp_all

private theorem quantified_none (a : Node) (g : ℕ) {d : UInt8} (hd : Ends d) (t : Bytes) :
    quantified a g (d :: t) = .ok (a, d :: t, g) := by
  simp [quantified, quantifiers, quantifier_none hd]

private theorem quantified_star (a : Node) (g : ℕ) {d : UInt8} (hd : Ends d) (t : Bytes) :
    quantified a g (byte '*' :: d :: t) = .ok (.rep 0 none true a, d :: t, g) := by
  have hq : d ≠ byte '?' := by
    rintro rfl
    exact hd.2.2.1 (by decide)
  have hs : quantifier (byte '*' :: d :: t) = .ok (some (0, none), d :: t) := rfl
  simp [quantified, quantifiers, hs, hq, quantifier_none hd]

private theorem quantified_plus (a : Node) (g : ℕ) {d : UInt8} (hd : Ends d) (t : Bytes) :
    quantified a g (byte '+' :: d :: t) = .ok (.rep 1 none true a, d :: t, g) := by
  have hq : d ≠ byte '?' := by
    rintro rfl
    exact hd.2.2.1 (by decide)
  have hs : quantifier (byte '+' :: d :: t) = .ok (some (1, none), d :: t) := rfl
  simp [quantified, quantifiers, hs, hq, quantifier_none hd]

/-- What stands behind a piece is the start of a piece or the final `$`. -/
theorem ends_head {p : Bytes} (hp : Plain p) :
    ∃ d t, p.flatMap piece ++ [byte '$'] = d :: t ∧ Ends d := by
  cases p with
  | nil => exact ⟨byte '$', [], rfl, by decide⟩
  | cons c p =>
    by_cases hplus : c = byte '+'
    · subst hplus
      exact ⟨byte '[', _, rfl, by decide⟩
    · by_cases hstar : c = byte '*'
      · subst hstar
        exact ⟨byte '.', _, rfl, by decide⟩
      · have hsym := sym_of_plain (hp c (by simp)) hplus hstar
        exact ⟨c, p.flatMap piece ++ [byte '$'], by simp [piece, hplus, hstar], by simp [Ends, hsym]⟩

theorem charClass_notSlash (t : Bytes) :
    charClass (ascii "^/]" ++ t) = .ok (⟨true, [.char (byte '/')]⟩, t) := rfl

/-- A piece is read as one term. -/
theorem term_piece {c d : UInt8} (hc : c ∉ metacharacters) (hd : Ends d) (n : ℕ) (t : Bytes) :
    ∃ e es, piece c = e :: es ∧ ¬ EndsAlternative e ∧
      term (n + 1) e (es ++ d :: t) 0 = .ok (pieceTree c, d :: t, 0) := by
  by_cases hplus : c = byte '+'
  · subst hplus
    refine ⟨byte '[', ascii "^/]+", rfl, by decide, ?_⟩
    have hsym : sym (byte '[') = .lbrack := by decide
    have hcls : charClass (ascii "^/]+" ++ d :: t) =
        .ok (⟨true, [.char (byte '/')]⟩, byte '+' :: d :: t) :=
      charClass_notSlash (byte '+' :: d :: t)
    rw [term, hsym]
    simp [hcls, quantified_plus _ _ hd, pieceTree]
  · by_cases hstar : c = byte '*'
    · subst hstar
      refine ⟨byte '.', ascii "*", rfl, by decide, ?_⟩
      have hsym : sym (byte '.') = .dot := by decide
      rw [term, hsym]
      exact quantified_star (.set .dot) 0 hd t
    · have hsym := sym_of_plain hc hplus hstar
      refine ⟨c, [], by simp [piece, hplus, hstar], by simp [EndsAlternative, hsym], ?_⟩
      rw [term, hsym]
      simp [quantified_none _ _ hd, pieceTree, hplus, hstar]

private theorem alternative_pieces {p : Bytes} (hp : Plain p) (n : ℕ) :
    alternative (p.length + n + 2) (p.flatMap piece ++ [byte '$']) 0 =
      .ok (patternTree p, [], 0) := by
  induction p with
  | nil =>
    have hsym : sym (byte '$') = .dollar := by decide
    have hends : ¬ EndsAlternative (byte '$') := by decide
    simp [alternative, term, hsym, hends, patternTree]
  | cons c p ih =>
    have hp' : Plain p := fun d hd => hp d (List.mem_cons_of_mem c hd)
    obtain ⟨d, t, hrest, hd⟩ := ends_head hp'
    obtain ⟨e, es, he, hends, hterm⟩ :=
      term_piece (hp c (by simp)) hd (p.length + n + 1) t
    have hlen : (c :: p).length + n + 2 = (p.length + n + 2) + 1 := by
      simp only [List.length_cons]
      omega
    have hrec := ih hp'
    rw [hrest] at hrec
    rw [List.flatMap_cons, List.append_assoc, hrest, he, List.cons_append, hlen, alternative]
    simp [hends, hterm, hrec, patternTree]

private theorem closes_patternTree (p : Bytes) (closed : List ℕ) :
    (patternTree p).closes closed = some closed := by
  induction p with
  | nil => rfl
  | cons c p ih =>
    have hpiece : (pieceTree c).closes closed = some closed := by
      unfold pieceTree
      split_ifs <;> rfl
    change ((pieceTree c).closes closed).bind (patternTree p).closes = some closed
    rw [hpiece, Option.bind_some, ih]

private theorem length_le_flatMap_piece (p : Bytes) : p.length ≤ (p.flatMap piece).length := by
  induction p with
  | nil => simp
  | cons c p ih =>
    have hpiece : 1 ≤ (piece c).length := by
      unfold piece
      split_ifs <;> simp [ascii]
    simp only [List.flatMap_cons, List.length_append, List.length_cons]
    omega

/-- A plain pattern is read without an error, as the sequence of its pieces. -/
theorem parse_fullRegexPattern {p : Bytes} (hp : Plain p) :
    parse (fullRegexPattern p) = .ok (.seq .bol (patternTree p)) := by
  rw [fullRegexPattern_eq, parse]
  have hlen := length_le_flatMap_piece p
  obtain ⟨k, hk⟩ : ∃ k, 3 * (byte '^' :: (p.flatMap piece ++ [byte '$'])).length + 3 =
      (p.length + k + 2) + 1 + 1 := by
    refine ⟨3 * (byte '^' :: (p.flatMap piece ++ [byte '$'])).length - p.length - 1, ?_⟩
    simp only [List.length_cons, List.length_append]
    omega
  have hsym : sym (byte '^') = .caret := by decide
  have hterm : term (p.length + k + 2) (byte '^') (p.flatMap piece ++ [byte '$']) 0 =
      .ok (.bol, p.flatMap piece ++ [byte '$'], 0) := by
    rw [term, hsym]
  have hends : ¬ EndsAlternative (byte '^') := by decide
  rw [hk, disjunction, alternative]
  simp [hends, hterm, alternative_pieces hp, Node.closes, closes_patternTree]

def pieceLanguage (c : UInt8) : Language UInt8 :=
  if c = byte '+' then
    CharSet.language ⟨true, [.char (byte '/')]⟩ ^ 1 *
      KStar.kstar (CharSet.language ⟨true, [.char (byte '/')]⟩)
  else if c = byte '*' then CharSet.language .dot ^ 0 * KStar.kstar (CharSet.language .dot)
  else CharSet.language (.single c)

def patternLanguage (p : Bytes) : Language UInt8 := p.foldr (fun c L => pieceLanguage c * L) 1

private theorem denotes_piece (c : UInt8) : Denotes (pieceTree c) (pieceLanguage c) := by
  unfold pieceTree pieceLanguage
  split_ifs
  · exact (denotes_set _).rep 1
  · exact (denotes_set _).rep 0
  · exact denotes_set _

private theorem denotesRest_pattern (p : Bytes) :
    DenotesRest (patternTree p) (patternLanguage p) := by
  induction p with
  | nil => exact denotesRest_eol
  | cons c p ih => exact (denotes_piece c).seq ih

/-- The characters a `*` of a pattern may stand for once it has become `.*`. -/
abbrev NoTerminator (c : UInt8) : Prop := ¬ LineTerminator c

theorem mem_notSlash (c : UInt8) :
    (⟨true, [.char (byte '/')]⟩ : CharSet).mem c = true ↔ c ≠ byte '/' := by
  simp [CharSet.mem, ClassItem.mem]

private theorem mem_pieceLanguage_plus (r : Bytes) :
    r ∈ pieceLanguage (byte '+') ↔ r ≠ [] ∧ byte '/' ∉ r := by
  rw [pieceLanguage, if_pos rfl, mem_language_plus]
  simp only [mem_notSlash]
  exact and_congr_right fun _ => ⟨fun h hm => h _ hm rfl, fun h c hc he => h (he ▸ hc)⟩

private theorem mem_pieceLanguage_star (r : Bytes) :
    r ∈ pieceLanguage (byte '*') ↔ ∀ c ∈ r, NoTerminator c := by
  have hne : byte '*' ≠ byte '+' := by decide
  rw [pieceLanguage, if_neg hne, if_pos rfl, pow_zero, one_mul, mem_language_kstar]
  simp only [CharSet.mem_dot, NoTerminator, LineTerminator, not_or]

private theorem mem_pieceLanguage_literal {c : UInt8} (hp : c ≠ byte '+') (hs : c ≠ byte '*')
    (r : Bytes) : r ∈ pieceLanguage c ↔ r = [c] := by
  rw [pieceLanguage, if_neg hp, if_neg hs]
  constructor
  · rintro ⟨d, hd, rfl⟩
    simpa using hd
  · rintro rfl
    exact ⟨c, by simp, rfl⟩

private theorem mem_patternLanguage (p t : Bytes) :
    t ∈ patternLanguage p ↔ FillsIn NoTerminator p t := by
  induction p generalizing t with
  | nil =>
    constructor
    · rintro rfl; exact .nil
    · rintro ⟨⟩; rfl
  | cons c p ih =>
    change t ∈ pieceLanguage c * patternLanguage p ↔ _
    rw [Language.mem_mul]
    constructor
    · rintro ⟨r, hr, u, hu, rfl⟩
      have hu' := (ih u).mp hu
      by_cases hplus : c = byte '+'
      · subst hplus
        obtain ⟨hne, hslash⟩ := (mem_pieceLanguage_plus r).mp hr
        exact .plus r hne hslash hu'
      · by_cases hstar : c = byte '*'
        · subst hstar
          exact .star r ((mem_pieceLanguage_star r).mp hr) hu'
        · obtain rfl := (mem_pieceLanguage_literal hplus hstar r).mp hr
          exact .literal c hplus hstar hu'
    · intro h
      cases h with
      | plus r hr hs h =>
        exact ⟨r, (mem_pieceLanguage_plus r).mpr ⟨hr, hs⟩, _, (ih _).mpr h, rfl⟩
      | star r hr h => exact ⟨r, (mem_pieceLanguage_star r).mpr hr, _, (ih _).mpr h, rfl⟩
      | literal _ hp hs h =>
        exact ⟨[c], (mem_pieceLanguage_literal hp hs _).mpr rfl, _, (ih _).mpr h, rfl⟩

/-- For a plain pattern the function returns, and it tells whether the topic is the
pattern filled in with runs that a `.` can match. -/
theorem matchesTopic_plain {p : Bytes} (hp : Plain p) (t : Bytes) :
    ∃ b, matchesTopic t p = .ok b ∧ (b = true ↔ FillsIn NoTerminator p t) := by
  refine ⟨regexMatch t (.seq .bol (patternTree p)), ?_, ?_⟩
  · simp [matchesTopic, parse_fullRegexPattern hp]
  · rw [(denotesRest_pattern p).regexMatch, mem_patternLanguage]

/-- On topics without line terminators the runs are arbitrary. -/
theorem matchesTopic_fills {p t : Bytes} (hp : Plain p) (ht : ∀ c ∈ t, ¬ LineTerminator c) :
    ∃ b, matchesTopic t p = .ok b ∧ (b = true ↔ Fills p t) := by
  obtain ⟨b, hb, hiff⟩ := matchesTopic_plain hp t
  exact ⟨b, hb, hiff.trans
    ⟨fun h => h.mono (fun _ _ => trivial), fun h => h.restrict (fun c hc _ => ht c hc)⟩⟩

end MessageBroker.TopicMatching
