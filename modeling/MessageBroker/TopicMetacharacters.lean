import MessageBroker.RegexReading
import MessageBroker.TopicMatching

/-!
# Patterns with other metacharacters

Only plain patterns mean what they say. In the tree of a pattern without classes and
escapes no metacharacter of the topic can be told from another, so a topic that contains
one can be changed without changing the result.
-/
namespace MessageBroker.TopicMetacharacters
open ByteStrings RegexSyntax RegexReading RegexMatching TopicMatching TransitionRuns

/-- What the subscriber program can send as a pattern. -/
def Word (p : Bytes) : Prop := ∀ c ∈ p, c ≠ 0 ∧ ClassName.space.mem c = false

instance (p : Bytes) : Decidable (Word p) :=
  List.decidableBAll (fun c => c ≠ 0 ∧ ClassName.space.mem c = false) p

/-- The function returns and `+` and `*` are the only characters that are special. -/
def MeansFills (topic pattern : Bytes) : Prop :=
  ∃ b, matchesTopic topic pattern = .ok b ∧ (b = true ↔ Fills pattern topic)

/-- Renaming the characters of the word does not change what the tree matches. -/
def Blind (f : UInt8 → UInt8) : Node → Prop
  | .set cs => ∀ c, cs.mem (f c) = cs.mem c
  | .seq a b | .alt a b => Blind f a ∧ Blind f b
  | .group _ a | .rep _ _ _ a | .look _ a => Blind f a
  | .backref _ | .wordBoundary _ => False
  | .empty | .bol | .eol => True

private theorem outcomes_map (f : UInt8 → UInt8) (w : Bytes) {a : Node} (h : Blind f a) :
    outcomes (w.map f) a = outcomes w a := by
  induction a with
  | empty => rfl
  | bol => rfl
  | eol =>
    funext s
    simp only [outcomes, List.length_map]
  | set cs =>
    funext s
    have hmem : cs.mem ∘ f = cs.mem := funext h
    simp only [outcomes, List.getElem?_map, Option.map_map, hmem]
  | seq a b iha ihb =>
    funext s
    simp only [outcomes, iha h.1, ihb h.2]
  | alt a b iha ihb =>
    funext s
    simp only [outcomes, iha h.1, ihb h.2]
  | group k a ih =>
    funext s
    simp only [outcomes, ih h]
  | backref k => exact absurd h id
  | rep min max greedy a ih =>
    funext s
    simp only [outcomes, ih h, List.length_map]
  | wordBoundary negated => exact absurd h id
  | look negated a ih =>
    funext s
    cases negated with
    | false => simp only [outcomes, ih h]
    | true => simp only [outcomes, ih h]

private theorem regexMatch_map (f : UInt8 → UInt8) (w : Bytes) {a : Node} (h : Blind f a) :
    regexMatch (w.map f) a = regexMatch w a := by
  rw [regexMatch, outcomes_map f w h, List.length_map, regexMatch]

/-- A renaming of metacharacters among themselves. -/
def Fixes (f : UInt8 → UInt8) : Prop := ∀ e, e ∉ metacharacters → ∀ x, f x = e ↔ x = e

variable {f : UInt8 → UInt8}

theorem Fixes.blind_single (hf : Fixes f) {e : UInt8} (he : e ∉ metacharacters) :
    Blind f (.set (.single e)) := by
  intro c
  rw [CharSet.mem_single, CharSet.mem_single, decide_eq_decide]
  exact hf e he c

theorem Fixes.blind_dot (hf : Fixes f) : Blind f (.set .dot) := by
  intro c
  apply Bool.eq_iff_iff.mpr
  rw [CharSet.mem_dot, CharSet.mem_dot, Ne, Ne, hf 10 (by decide), hf 13 (by decide)]

theorem Fixes.blind_notSlash (hf : Fixes f) : Blind f (.set ⟨true, [.char (byte '/')]⟩) := by
  intro c
  apply Bool.eq_iff_iff.mpr
  rw [mem_notSlash, mem_notSlash, Ne, hf (byte '/') (by decide)]

/-- No escape, and no class but the one that a `+` becomes. -/
def Tame (cs : Bytes) : Prop :=
  byte '\\' ∉ cs ∧ ∀ rest, byte '[' :: rest <:+ cs → ascii "^/]" <+: rest

theorem Tame.suffix {cs rest : Bytes} (h : Tame cs) (hs : rest <:+ cs) : Tame rest :=
  ⟨fun hm => h.1 (hs.subset hm), fun t ht => h.2 t (ht.trans hs)⟩

def specials : Bytes := byte '+' :: byte '*' :: metacharacters

private theorem sym_of_notMem {c : UInt8} (h : c ∉ specials) :
    sym c = .char c ∧ c ∉ metacharacters := by
  simp only [specials, List.mem_cons, not_or] at h
  exact ⟨sym_of_plain h.2.2 h.1 h.2.1, h.2.2⟩

private theorem sym_char {c d : UInt8} (h : sym c = .char d) : d = c ∧ c ∉ metacharacters := by
  by_cases hc : c ∈ specials
  · have hall : ∀ e ∈ specials, (match sym e with | .char _ => false | _ => true) = true := by
      decide +kernel
    have hsym := hall c hc
    rw [h] at hsym
    cases hsym
  · obtain ⟨hsym, hm⟩ := sym_of_notMem hc
    rw [h] at hsym
    exact ⟨Sym.char.inj hsym, hm⟩

private theorem eq_of_sym {c e : UInt8} (he : e ∈ specials) (h : sym c = sym e) : c = e := by
  have hall : ∀ d ∈ specials, ∀ e ∈ specials, sym d = sym e → d = e := by decide +kernel
  by_cases hc : c ∈ specials
  · exact hall c hc e he h
  · rw [(sym_of_notMem hc).1] at h
    exact absurd (sym_char h.symm).1 (fun hce => hc (hce ▸ he))

theorem Fixes.closedUnder (hf : Fixes f) : ClosedUnder Tame (Blind f) where
  suffix := Tame.suffix
  char h := by
    obtain ⟨rfl, hd⟩ := sym_char h
    exact hf.blind_single hd
  dot := hf.blind_dot
  set h hc hs := by
    obtain rfl := eq_of_sym (e := byte '[') (by decide) (hc.trans (by decide))
    obtain ⟨t, rfl⟩ := h.2 _ List.suffix_rfl
    rw [charClass_notSlash] at hs
    cases hs
    exact hf.blind_notSlash
  escape h hc _ := by
    obtain rfl := eq_of_sym (e := byte '\\') (by decide) (hc.trans (by decide))
    exact absurd List.mem_cons_self h.1
  empty := trivial
  bol := trivial
  eol := trivial
  seq ha hb := ⟨ha, hb⟩
  alt ha hb := ⟨ha, hb⟩
  group ha := ha
  rep ha := ha
  look ha := ha

theorem Tame.cons {c : UInt8} {cs : Bytes} (h : Tame cs) (he : c ≠ byte '\\')
    (hb : c ≠ byte '[') : Tame (c :: cs) := by
  refine ⟨?_, ?_⟩
  · intro hm
    rcases List.mem_cons.mp hm with hc | hm
    · exact he hc.symm
    · exact h.1 hm
  · intro rest hs
    rcases List.suffix_cons_iff.mp hs with hc | hs
    · exact absurd (List.cons.inj hc).1.symm hb
    · exact h.2 rest hs

/-- The class that a `+` becomes is the one that is allowed. -/
theorem Tame.plus {cs : Bytes} (h : Tame cs) : Tame (ascii "[^/]+" ++ cs) := by
  have hrest : Tame (ascii "^/]+" ++ cs) :=
    (((h.cons (c := byte '+') (by decide) (by decide)).cons (c := byte ']') (by decide)
      (by decide)).cons (c := byte '/') (by decide) (by decide)).cons (c := byte '^') (by decide)
      (by decide)
  refine ⟨?_, ?_⟩
  · intro hm
    rcases List.mem_cons.mp hm with hc | hm
    · exact absurd hc (by decide)
    · exact hrest.1 hm
  · intro rest hs
    rcases List.suffix_cons_iff.mp hs with hc | hs
    · rw [(List.cons.inj hc).2]
      exact List.prefix_append (ascii "^/]") (byte '+' :: cs)
    · exact hrest.2 rest hs

private theorem tame_fullRegexPattern {p : Bytes} (hb : byte '[' ∉ p) (he : byte '\\' ∉ p) :
    Tame (fullRegexPattern p) := by
  have hpieces : Tame (p.flatMap piece ++ [byte '$']) := by
    induction p with
    | nil =>
      refine Tame.cons ⟨by simp, ?_⟩ (by decide) (by decide)
      intro rest hs
      exact absurd (List.suffix_nil.mp hs) (by simp)
    | cons c p ih =>
      simp only [List.mem_cons, not_or] at hb he
      have hp := ih hb.2 he.2
      rw [List.flatMap_cons, List.append_assoc]
      by_cases hplus : c = byte '+'
      · rw [piece, if_pos hplus]
        exact hp.plus
      · by_cases hstar : c = byte '*'
        · rw [piece, if_neg hplus, if_pos hstar]
          exact (hp.cons (c := byte '*') (by decide) (by decide)).cons (c := byte '.') (by decide)
            (by decide)
        · rw [piece, if_neg hplus, if_neg hstar]
          exact hp.cons (fun h => he.1 h.symm) (fun h => hb.1 h.symm)
  rw [fullRegexPattern_eq]
  exact hpieces.cons (by decide) (by decide)

private theorem matchesTopic_map (hf : Fixes f) {p : Bytes} (hb : byte '[' ∉ p) (he : byte '\\' ∉ p)
    (t : Bytes) : matchesTopic (t.map f) p = matchesTopic t p := by
  rw [matchesTopic, matchesTopic]
  cases hp : parse (fullRegexPattern p) with
  | error e => rfl
  | ok a =>
    have hblind : Blind f a := by
      rw [parse] at hp
      obtain ⟨⟨b, rest, g⟩, hread, hp⟩ := bind_eq_ok.mp hp
      obtain ⟨hblind, -⟩ :=
        (hf.closedUnder.reads _).1 _ 0 (tame_fullRegexPattern hb he) b rest g hread
      dsimp only at hp
      split_ifs at hp
      cases hp
      exact hblind
    rw [ok_bind, ok_bind, regexMatch_map f t hblind]

/-- Each `+` becomes one letter and each `*` nothing. -/
def simplest (p : Bytes) : Bytes :=
  p.flatMap (fun c => if c = byte '+' then ascii "x" else if c = byte '*' then [] else [c])

private theorem fills_simplest (p : Bytes) : Fills p (simplest p) := by
  induction p with
  | nil => exact .nil
  | cons c p ih =>
    rw [simplest, List.flatMap_cons]
    by_cases hplus : c = byte '+'
    · rw [if_pos hplus, hplus]
      exact .plus (ascii "x") (by decide) (by decide) ih
    · rw [if_neg hplus]
      by_cases hstar : c = byte '*'
      · rw [if_pos hstar, hstar]
        exact .star [] (by simp) ih
      · rw [if_neg hstar]
        exact .literal c hplus hstar ih

private theorem zero_notMem_simplest {p : Bytes} (h : 0 ∉ p) : 0 ∉ simplest p := by
  intro hm
  obtain ⟨c, hc, hz⟩ := List.mem_flatMap.mp hm
  split_ifs at hz
  · exact absurd hz (by decide)
  · cases hz
  · exact h (List.mem_singleton.mp hz ▸ hc)

/-- A literal character of the pattern occurs in the topic as often. -/
theorem count_le_of_fills {p t : Bytes} (h : Fills p t) {c : UInt8} (hp : c ≠ byte '+')
    (hs : c ≠ byte '*') : p.count c ≤ t.count c := by
  induction h with
  | nil => exact le_rfl
  | plus r hr hslash _ ih =>
    rw [List.count_cons_of_ne hp.symm, List.count_append]
    exact ih.trans (Nat.le_add_left _ _)
  | star r hr _ ih =>
    rw [List.count_cons_of_ne hs.symm, List.count_append]
    exact ih.trans (Nat.le_add_left _ _)
  | literal d _ _ _ ih =>
    rw [List.count_cons, List.count_cons]
    exact Nat.add_le_add_right ih _

/-- Without classes and escapes a pattern that means its fillings is plain: in the simplest
topic a metacharacter could be changed into another one. -/
theorem plain_of_meansFills {p : Bytes} (hz : 0 ∉ p) (hb : byte '[' ∉ p) (he : byte '\\' ∉ p)
    (h : ∀ t, 0 ∉ t → MeansFills t p) : Plain p := by
  intro c hc hm
  obtain ⟨d, hd, hd0, hdc⟩ : ∃ d ∈ metacharacters, d ≠ 0 ∧ d ≠ c := by
    by_cases hdot : c = byte '.'
    · exact ⟨byte '?', by decide, by decide, by rw [hdot]; decide⟩
    · exact ⟨byte '.', by decide, by decide, fun h => hdot h.symm⟩
  have hwild : ∀ e ∈ metacharacters, e ≠ byte '+' ∧ e ≠ byte '*' := by decide +kernel
  have hfix : Fixes (fun x => if x = c then d else x) := by
    intro e hemeta x
    have hce : c ≠ e := fun h => hemeta (h ▸ hm)
    have hde : d ≠ e := fun h => hemeta (h ▸ hd)
    by_cases hx : x = c
    · simp only [hx, ↓reduceIte, hce, hde]
    · simp only [hx, ↓reduceIte]
  have hsimple := zero_notMem_simplest hz
  have hmapped : 0 ∉ (simplest p).map (fun x => if x = c then d else x) := by
    intro hmem
    obtain ⟨x, hx, he⟩ := List.mem_map.mp hmem
    split_ifs at he
    · exact hd0 he
    · exact hsimple (he ▸ hx)
  obtain ⟨b, hok, hiff⟩ := h _ hsimple
  obtain ⟨b', hok', hiff'⟩ := h _ hmapped
  rw [matchesTopic_map hfix hb he, hok] at hok'
  cases hok'
  have hcount := count_le_of_fills (hiff'.mp (hiff.mpr (fills_simplest p))) (hwild c hm).1
    (hwild c hm).2
  have hnone : ((simplest p).map (fun x => if x = c then d else x)).count c = 0 := by
    apply List.count_eq_zero.mpr
    intro hmem
    obtain ⟨x, -, he⟩ := List.mem_map.mp hmem
    split_ifs at he with hx
    · exact hdc he
    · exact hx he
  rw [hnone] at hcount
  exact List.count_eq_zero.mp (Nat.le_zero.mp hcount) hc

variable {n g g' min : ℕ} {c d : UInt8} {t u rest : Bytes}

/-- A quantified set comes out as itself only if no other quantifier follows. -/
theorem rest_of_quantified_once {set : CharSet}
    (hq : quantifier (d :: t) = .ok (some (min, none), t))
    (h : quantified (.set set) g (d :: t) = .ok (.rep min none true (.set set), rest, g')) :
    rest = t := by
  obtain ⟨⟨b, u⟩, hread, h⟩ := bind_eq_ok.mp h
  cases h
  rw [quantifiers, hq, ok_bind] at hread
  dsimp only at hread
  split_ifs at hread
  · rcases quantifiers_reads hread with ⟨hb, -⟩ | ⟨hb, -⟩
    · cases hb
    · cases hb.of_set
  · rcases quantifiers_reads hread with ⟨-, hrest⟩ | ⟨hb, -⟩
    · exact hrest
    · cases hb.of_set

private theorem rest_of_quantified_none {a s : CharSet}
    (h : quantified (.set a) g t = .ok (.set s, rest, g')) : a = s ∧ rest = t := by
  rcases quantified_reads h with ⟨hb, hrest⟩ | ⟨hb, -⟩
  · cases hb
    exact ⟨rfl, hrest⟩
  · cases hb

/-- A term that gives the tree of a piece has read the piece, or more than that when the piece
is a metacharacter. -/
theorem term_eq_piece {e : UInt8} {es : Bytes} (hpiece : piece c = e :: es)
    (h : term n e (es ++ t) g = .ok (pieceTree c, rest, g')) :
    c ∉ metacharacters ∧ rest = t ∨ rest.length < t.length := by
  cases n with
  | zero => cases h
  | succ n =>
    by_cases hplus : c = byte '+'
    · subst hplus
      obtain ⟨rfl, rfl⟩ : byte '[' = e ∧ ascii "^/]+" = es := List.cons.inj hpiece
      have hsym : sym (byte '[') = .lbrack := by decide
      have hcls : charClass (ascii "^/]+" ++ t) =
          .ok (⟨true, [.char (byte '/')]⟩, byte '+' :: t) := charClass_notSlash (byte '+' :: t)
      rw [term, hsym] at h
      dsimp only at h
      rw [hcls, ok_bind] at h
      exact .inl ⟨by decide, rest_of_quantified_once rfl h⟩
    · by_cases hstar : c = byte '*'
      · subst hstar
        obtain ⟨rfl, rfl⟩ : byte '.' = e ∧ ascii "*" = es := List.cons.inj hpiece
        have hsym : sym (byte '.') = .dot := by decide
        rw [term, hsym] at h
        exact .inl ⟨by decide, rest_of_quantified_once rfl h⟩
      · rw [piece, if_neg hplus, if_neg hstar] at hpiece
        obtain ⟨rfl, rfl⟩ := List.cons.inj hpiece
        rw [pieceTree, if_neg hplus, if_neg hstar] at h
        by_cases hc : c ∈ metacharacters
        · refine .inr ?_
          by_cases hopens : sym c ∈ [.backslash, .lbrack, .lparen]
          · exact (term_readsTo hopens h).length_lt
          · -- the others give an assertion, an error or the set of a dot
            rw [term] at h
            have hdot : quantified (.set .dot) g t ≠ .ok (.set (.single c), rest, g') := by
              intro h
              cases (rest_of_quantified_none h).1
            have hchar : ∀ d, sym c ≠ .char d := fun d hd => (sym_char hd).2 hc
            split at h <;> simp_all
        · rw [term, sym_of_plain hc hplus hstar] at h
          exact .inl ⟨hc, (rest_of_quantified_none h).2⟩

/-- A piece takes at least its own length. -/
theorem length_piece_le (h : term n c u g = .ok (pieceTree d, rest, g')) :
    (piece d).length + rest.length ≤ u.length + 1 := by
  have hle := (term_suffix h).length_le
  by_cases hplus : d = byte '+'
  · subst hplus
    have hclass := (term_repeated_set h).2 rfl (by decide)
    have hlen : (piece (byte '+')).length = 5 := rfl
    rw [List.length_singleton] at hclass
    omega
  · by_cases hstar : d = byte '*'
    · subst hstar
      have hread := (term_repeated_set h).1.length_lt
      have hlen : (piece (byte '*')).length = 2 := rfl
      omega
    · rw [piece, if_neg hplus, if_neg hstar, List.length_singleton]
      omega

private theorem length_pieces_le {p : Bytes}
    (h : alternative n u g = .ok (patternTree p, rest, g')) :
    (p.flatMap piece ++ [byte '$']).length ≤ u.length := by
  induction p generalizing n u g with
  | nil =>
    cases n with
    | zero => cases h
    | succ n =>
      cases u with
      | nil => cases h
      | cons c u => simp
  | cons d p ih =>
    cases n with
    | zero => cases h
    | succ n =>
      cases u with
      | nil => cases h
      | cons c u =>
        rw [alternative] at h
        split_ifs at h
        · cases h
        · obtain ⟨⟨b, t, g₁⟩, hb, h⟩ := bind_eq_ok.mp h
          obtain ⟨⟨b', t', g₂⟩, hb', h⟩ := bind_eq_ok.mp h
          cases h
          have hpiece := length_piece_le hb
          have hrest := ih hb'
          simp only [List.flatMap_cons, List.length_append, List.length_cons] at hrest ⊢
          omega

/-- An expression that is read as the pieces of the pattern has no metacharacter in it: the
first one would have taken text that the pieces behind it need. -/
theorem plain_of_alternative {p : Bytes}
    (h : alternative n (p.flatMap piece ++ [byte '$']) g = .ok (patternTree p, rest, g')) :
    Plain p := by
  induction p generalizing n g with
  | nil =>
    intro c hc
    cases hc
  | cons c p ih =>
    obtain ⟨e, es, hpiece⟩ : ∃ e es, piece c = e :: es := by
      unfold piece
      split_ifs
      · exact ⟨_, _, rfl⟩
      · exact ⟨_, _, rfl⟩
      · exact ⟨_, _, rfl⟩
    rw [List.flatMap_cons, List.append_assoc, hpiece, List.cons_append] at h
    cases n with
    | zero => cases h
    | succ n =>
      rw [alternative] at h
      split_ifs at h
      · cases h
      · obtain ⟨⟨b, t, g₁⟩, hb, h⟩ := bind_eq_ok.mp h
        obtain ⟨⟨b', t', g₂⟩, hb', h⟩ := bind_eq_ok.mp h
        cases h
        rcases term_eq_piece hpiece hb with ⟨hc, rfl⟩ | hlt
        · intro d hd
          rcases List.mem_cons.mp hd with rfl | hd
          · exact hc
          · exact ih hb' d hd
        · exact absurd (length_pieces_le hb') (Nat.not_le_of_lt hlt)

/-- `regex` reads the expression as the pieces of the pattern exactly if the pattern is plain. -/
theorem parse_eq_pieces_iff (p : Bytes) :
    parse (fullRegexPattern p) = .ok (.seq .bol (patternTree p)) ↔ Plain p := by
  refine ⟨fun h => ?_, parse_fullRegexPattern⟩
  rw [fullRegexPattern_eq, parse, bind_eq_ok] at h
  obtain ⟨⟨a, rest, g⟩, hread, h⟩ := h
  dsimp only at h
  split_ifs at h
  cases h
  -- nothing but the one alternative after `^` gives this tree
  rw [disjunction, bind_eq_ok] at hread
  obtain ⟨⟨b, t, g₁⟩, hb, hread⟩ := hread
  have hseq : b = .seq .bol (patternTree p) := by
    cases t with
    | nil =>
      cases hread
      rfl
    | cons c t =>
      dsimp only at hread
      split_ifs at hread
      · obtain ⟨⟨d, u, g₂⟩, -, hread⟩ := bind_eq_ok.mp hread
        cases hread
      · cases hread
        rfl
  subst hseq
  have hends : ¬ EndsAlternative (byte '^') := by decide
  have hsym : sym (byte '^') = .caret := by decide
  rw [alternative, if_neg hends, bind_eq_ok] at hb
  obtain ⟨⟨c, u, g₂⟩, hc, hb⟩ := hb
  rw [term, hsym] at hc
  cases hc
  rw [bind_eq_ok] at hb
  obtain ⟨⟨d, v, g₃⟩, hd, hb⟩ := hb
  cases hb
  exact plain_of_alternative hd

/-- The line feeds that stand in front of a slash. -/
def feeds : Bytes → ℕ
  | [] => 0
  | c :: t => (if c = 10 ∧ t.head? = some (byte '/') then 1 else 0) + feeds t

private theorem feeds_le_append (r t : Bytes) : feeds t ≤ feeds (r ++ t) := by
  induction r with
  | nil => exact le_rfl
  | cons c r ih =>
    rw [List.cons_append, feeds]
    omega

private theorem feeds_append_of_notMem {r : Bytes} (h : 10 ∉ r) (t : Bytes) :
    feeds (r ++ t) = feeds t := by
  induction r with
  | nil => rfl
  | cons c r ih =>
    simp only [List.mem_cons, not_or] at h
    rw [List.cons_append, feeds, if_neg (fun hc => h.1 hc.1.symm), ih h.2, Nat.zero_add]

/-- In a run without slashes only the last character can be counted. -/
theorem feeds_append_le {r : Bytes} (h : byte '/' ∉ r) (t : Bytes) :
    feeds (r ++ t) ≤ feeds t + 1 := by
  induction r with
  | nil => exact Nat.le_succ _
  | cons c r ih =>
    simp only [List.mem_cons, not_or] at h
    rw [List.cons_append, feeds]
    cases r with
    | nil =>
      rw [List.nil_append]
      split_ifs
      · omega
      · omega
    | cons d r =>
      have hd : ¬ (c = 10 ∧ ((d :: r) ++ t).head? = some (byte '/')) := by
        intro hc
        exact h.2 (by simpa using .inl (Option.some.inj hc.2).symm)
      rw [if_neg hd, Nat.zero_add]
      exact ih h.2

private theorem feeds_le_of_fillsIn {p t : Bytes} (hp : 10 ∉ p) (h : FillsIn NoTerminator p t) :
    feeds t ≤ p.count (byte '+') := by
  induction h with
  | nil => exact le_rfl
  | plus r hr hs _ ih =>
    have hle := ih (fun hm => hp (List.mem_cons_of_mem _ hm))
    rw [List.count_cons_self]
    exact (feeds_append_le hs _).trans (Nat.succ_le_succ hle)
  | star r hr _ ih =>
    have hle := ih (fun hm => hp (List.mem_cons_of_mem _ hm))
    rw [feeds_append_of_notMem (fun hm => hr 10 hm (.inl rfl)), List.count_cons_of_ne (by decide)]
    exact hle
  | literal c hplus hstar _ ih =>
    have hle := ih (fun hm => hp (List.mem_cons_of_mem _ hm))
    have hc : c ≠ 10 := fun hc => hp (hc ▸ List.mem_cons_self)
    rw [List.count_cons_of_ne hplus, feeds, if_neg (fun hlf => hc hlf.1), Nat.zero_add]
    exact hle

private theorem le_feeds_replicate (n : ℕ) (t : Bytes) :
    n ≤ feeds ((List.replicate n [10, byte '/']).flatten ++ t) := by
  induction n with
  | zero => exact Nat.zero_le _
  | succ n ih =>
    rw [List.replicate_succ, List.flatten_cons, List.append_assoc]
    have hone : feeds ([10, byte '/'] ++ ((List.replicate n [10, byte '/']).flatten ++ t)) =
        1 + feeds ((List.replicate n [10, byte '/']).flatten ++ t) := by
      simp [feeds, byte]
    omega

/-- A `*` does not take line terminators: with more of them than there are `+` some are left. -/
theorem star_notMem_of_meansFills {p : Bytes} (hw : Word p) (hplain : Plain p)
    (h : ∀ t, 0 ∉ t → MeansFills t p) : byte '*' ∉ p := by
  intro hstar
  obtain ⟨p₁, p₂, rfl⟩ := List.append_of_mem hstar
  have hz : 0 ∉ p₁ ++ byte '*' :: p₂ := fun hm => (hw 0 hm).1 rfl
  have hlf : 10 ∉ p₁ ++ byte '*' :: p₂ := fun hm => absurd (hw 10 hm).2 (by decide)
  let n := (p₁ ++ byte '*' :: p₂).count (byte '+') + 1
  let run : Bytes := (List.replicate n [10, byte '/']).flatten
  have hfills : Fills (p₁ ++ byte '*' :: p₂) (simplest p₁ ++ (run ++ simplest p₂)) :=
    (fills_simplest p₁).append (.star run (fun _ _ => trivial) (fills_simplest p₂))
  have hzero : 0 ∉ simplest p₁ ++ (run ++ simplest p₂) := by
    simp only [List.mem_append, not_or]
    refine ⟨zero_notMem_simplest (fun hm => hz (List.mem_append_left _ hm)), ?_,
      zero_notMem_simplest (fun hm => hz (List.mem_append_right _ (List.mem_cons_of_mem _ hm)))⟩
    intro hm
    obtain ⟨l, hl, hm⟩ := List.mem_flatten.mp hm
    rw [List.eq_of_mem_replicate hl] at hm
    exact absurd hm (by decide)
  obtain ⟨b, hb, hiff⟩ := h _ hzero
  obtain ⟨b', hb', hiff'⟩ := matchesTopic_plain hplain (simplest p₁ ++ (run ++ simplest p₂))
  rw [hb] at hb'
  cases hb'
  have hle := feeds_le_of_fillsIn hlf (hiff'.mp (hiff.mpr hfills))
  have hge : n ≤ feeds (simplest p₁ ++ (run ++ simplest p₂)) :=
    (le_feeds_replicate n (simplest p₂)).trans (feeds_le_append (simplest p₁) _)
  omega

private theorem fillsIn_of_star_notMem {S : UInt8 → Prop} {p t : Bytes} (hp : byte '*' ∉ p)
    (h : Fills p t) : FillsIn S p t := by
  induction h with
  | nil => exact .nil
  | plus r hr hs _ ih => exact .plus r hr hs (ih (fun hm => hp (List.mem_cons_of_mem _ hm)))
  | star r hr _ _ => exact absurd List.mem_cons_self hp
  | literal c hplus hstar _ ih =>
    exact .literal c hplus hstar (ih (fun hm => hp (List.mem_cons_of_mem _ hm)))

/-- A plain pattern means its fillings on a topic exactly if no `*` has to take a line terminator. -/
theorem meansFills_plain_iff {p : Bytes} (hp : Plain p) (t : Bytes) :
    MeansFills t p ↔ (Fills p t → FillsIn NoTerminator p t) := by
  obtain ⟨b, hb, hiff⟩ := matchesTopic_plain hp t
  constructor
  · rintro ⟨b', hb', hiff'⟩ hf
    rw [hb] at hb'
    cases hb'
    exact hiff.mp (hiff'.mpr hf)
  · intro h
    exact ⟨b, hb, hiff.trans ⟨fun hf => hf.mono (fun _ _ => trivial), h⟩⟩

/-- The expression is read as the pieces of a plain pattern and of no other. A plain pattern
means its fillings on a topic exactly if no `*` has to take a line terminator there; on all topics
that holds without a `*`, and among the patterns without classes and escapes of no others. -/
theorem meansFills_iff_plain {p : Bytes} (hw : Word p) :
    (parse (fullRegexPattern p) = .ok (.seq .bol (patternTree p)) ↔ Plain p) ∧
    (Plain p → ∀ t, MeansFills t p ↔ (Fills p t → FillsIn NoTerminator p t)) ∧
    (byte '[' ∉ p → byte '\\' ∉ p →
      ((∀ t, 0 ∉ t → MeansFills t p) ↔ Plain p ∧ byte '*' ∉ p)) := by
  refine ⟨parse_eq_pieces_iff p, meansFills_plain_iff, ?_⟩
  intro hb he
  constructor
  · intro h
    have hplain := plain_of_meansFills (fun hm => (hw 0 hm).1 rfl) hb he h
    exact ⟨hplain, star_notMem_of_meansFills hw hplain h⟩
  · rintro ⟨hplain, hstar⟩ t _
    exact (meansFills_plain_iff hplain t).mpr (fillsIn_of_star_notMem hstar)

theorem meansFills_iff_plain_level : Plain (ascii "upb/+/100") ∧
    ∀ t, 0 ∉ t → MeansFills t (ascii "upb/+/100") := by
  have hplain : Plain (ascii "upb/+/100") := by decide +kernel
  have hword : Word (ascii "upb/+/100") := by decide +kernel
  refine ⟨hplain, ?_⟩
  exact ((meansFills_iff_plain hword).2.2 (by decide +kernel) (by decide +kernel)).mpr
    ⟨hplain, by decide +kernel⟩

/-- A dot matches other characters too, a lone bracket throws, a `*` skips no line feed. -/
theorem meansFills_fails : ¬ MeansFills (ascii "a") (ascii ".") ∧
    ¬ MeansFills (ascii "a") (ascii "[") ∧ ¬ MeansFills [10] (ascii "*") := by
  refine ⟨?_, ?_, ?_⟩
  · rintro ⟨b, hb, hiff⟩
    have hmatch : matchesTopic (ascii "a") (ascii ".") = .ok true := by decide +kernel
    rw [hmatch] at hb
    cases hb
    have hfills : Fills (ascii ".") (ascii "a") := hiff.mp rfl
    exact absurd ((fillsIn_iff_eq (by decide) (by decide) _).mp hfills) (by decide)
  · rintro ⟨b, hb, _⟩
    have hmatch : matchesTopic (ascii "a") (ascii "[") = .error .brack := by decide +kernel
    rw [hmatch] at hb
    cases hb
  · rintro ⟨b, hb, hiff⟩
    have hmatch : matchesTopic [10] (ascii "*") = .ok false := by decide +kernel
    rw [hmatch] at hb
    cases hb
    have hfills : Fills (ascii "*") [10] :=
      .star (p := []) (t := []) [10] (fun _ _ => trivial) .nil
    exact absurd (hiff.mpr hfills) (by decide)

end MessageBroker.TopicMetacharacters
