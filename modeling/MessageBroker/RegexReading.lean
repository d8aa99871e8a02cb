import MessageBroker.RegexSyntax
import MessageBroker.TransitionRuns

/-!
# What the reader of regular expressions takes

Every reader leaves a suffix of its text. What holds of the atoms that a text can give and goes
through the constructors holds of every tree that is read, by one induction on the fuel.
-/
namespace MessageBroker.RegexReading
open ByteStrings RegexSyntax TransitionRuns

/-- At least one character of the text is read, and `rest` is left. -/
def ReadsTo (cs rest : Bytes) : Prop := ∃ c t, cs = c :: t ∧ rest <:+ t

variable {cs rest t u : Bytes}

theorem ReadsTo.suffix (h : ReadsTo cs rest) : rest <:+ cs := by
  obtain ⟨c, t, rfl, hs⟩ := h
  exact hs.trans (List.suffix_cons c t)

theorem ReadsTo.length_lt (h : ReadsTo cs rest) : rest.length < cs.length := by
  obtain ⟨c, t, rfl, hs⟩ := h
  exact Nat.lt_succ_of_le hs.length_le

theorem ReadsTo.trans_suffix (h : ReadsTo cs t) (hs : rest <:+ t) : ReadsTo cs rest := by
  obtain ⟨c, u, rfl, hu⟩ := h
  exact ⟨c, u, rfl, hs.trans hu⟩

theorem ReadsTo.of_suffix (hs : t <:+ cs) (h : ReadsTo t rest) : ReadsTo cs rest := by
  obtain ⟨c, u, rfl, hu⟩ := h
  obtain ⟨p, rfl⟩ := hs
  cases p with
  | nil => exact ⟨c, u, rfl, hu⟩
  | cons d p => exact ⟨d, p ++ c :: u, rfl, (hu.trans (List.suffix_cons c u)).trans
      (List.suffix_append p (c :: u))⟩

theorem readsTo_cons (c : UInt8) (t : Bytes) : ReadsTo (c :: t) t := ⟨c, t, rfl, List.suffix_rfl⟩

theorem readHex_suffix {n acc v : ℕ} (h : readHex n acc cs = some (v, rest)) : rest <:+ cs := by
  induction n generalizing acc cs with
  | zero =>
    cases h
    exact List.suffix_rfl
  | succ n ih =>
    cases cs with
    | nil => cases h
    | cons c t =>
      obtain ⟨d, -, h⟩ := Option.bind_eq_some_iff.mp h
      exact (ih h).trans (List.suffix_cons c t)

theorem hexEscape_suffix {n : ℕ} {e : Escaped} (h : hexEscape n cs = .ok (e, rest)) :
    rest <:+ cs := by
  rw [hexEscape] at h
  split at h
  · rename_i hread
    cases h
    exact readHex_suffix hread
  · cases h

theorem escape_readsTo {inBracket : Bool} {e : Escaped}
    (h : escape inBracket cs = .ok (e, rest)) : ReadsTo cs rest := by
  cases cs with
  | nil => cases h
  | cons c t =>
    refine ⟨c, t, rfl, ?_⟩
    rw [escape.eq_def] at h
    dsimp only at h
    split at h
    · cases h
      exact List.suffix_rfl
    · split_ifs at h with _ _ _ hdigit
      · split at h
        · cases h
          exact List.suffix_cons _ _
        · cases h
      · exact hexEscape_suffix h
      · exact hexEscape_suffix h
      · obtain ⟨k, -, h⟩ := bind_eq_ok.mp h
        cases h
        rw [List.dropWhile_cons_of_pos hdigit]
        exact List.dropWhile_suffix _
      · cases h
        exact List.suffix_rfl

theorem eatClass_suffix {d : UInt8} {name : Bytes} (h : eatClass d cs = .ok (name, rest)) :
    rest <:+ cs := by
  have hdrop := List.dropWhile_suffix (· ≠ d) (l := cs)
  rw [eatClass] at h
  split at h
  · rename_i c b t ht
    rw [ht] at hdrop
    split_ifs at h
    cases h
    exact ((List.suffix_cons b _).trans (List.suffix_cons c _)).trans hdrop
  · cases h

/-- A bracketed name is read from behind its two opening characters. -/
theorem map_eatClass_suffix {d : UInt8} {token : ClassToken} {f : Bytes → ClassToken}
    (h : (eatClass d cs).map (fun q => (f q.1, q.2)) = .ok (token, rest)) : rest <:+ cs := by
  cases hname : eatClass d cs with
  | error e =>
    rw [hname] at h
    cases h
  | ok q =>
    rw [hname] at h
    cases h
    exact eatClass_suffix hname

theorem classToken_readsTo {token : ClassToken} (h : classToken cs = .ok (token, rest)) :
    ReadsTo cs rest := by
  cases cs with
  | nil => cases h
  | cons c t =>
    refine ⟨c, t, rfl, ?_⟩
    rw [classToken.eq_def] at h
    dsimp only at h
    split_ifs at h
    · cases h
      exact List.suffix_rfl
    · split at h
      · cases h
      · rename_i d t
        split_ifs at h
        · exact (map_eatClass_suffix h).trans (List.suffix_cons d t)
        · exact (map_eatClass_suffix h).trans (List.suffix_cons d t)
        · exact (map_eatClass_suffix h).trans (List.suffix_cons d t)
        · cases h
          exact List.suffix_rfl
    · cases h
      exact List.suffix_rfl
    · cases hesc : escape true t with
      | error e =>
        rw [hesc] at h
        cases h
      | ok q =>
        rw [hesc] at h
        cases h
        exact (escape_readsTo hesc).suffix
    · cases h
      exact List.suffix_rfl

/-- Every item of a class has taken a character, one more is the closing bracket. An item that
is held back for a range has been taken before. -/
theorem expressionTerms_reads {n : ℕ} {last : LastChar} {items : List ClassItem}
    (h : expressionTerms n last cs = .ok (items, rest)) :
    ReadsTo cs rest ∧ items.length + rest.length + 1 ≤ cs.length + last.items.length := by
  induction n generalizing last items cs rest with
  | zero => cases h
  | succ n ih =>
    obtain ⟨⟨token, t⟩, htoken, h⟩ := bind_eq_ok.mp h
    have ht := classToken_readsTo htoken
    have hlen := ht.length_lt
    -- what the items behind the token come to
    have hmore (l : LastChar) (f : List ClassItem → List ClassItem) {u : Bytes} (hu : u <:+ t)
        (hf : ∀ is, (f is).length + l.items.length ≤ is.length + last.items.length + 1)
        (h : (expressionTerms n l u >>= fun q => .ok (f q.1, q.2)) = .ok (items, rest)) :
        ReadsTo cs rest ∧ items.length + rest.length + 1 ≤ cs.length + last.items.length := by
      obtain ⟨⟨is, v⟩, his, h⟩ := bind_eq_ok.mp h
      cases h
      obtain ⟨hread, hle⟩ := ih his
      have hfis := hf is
      have hule := hu.length_le
      refine ⟨ht.trans_suffix (hread.suffix.trans hu), ?_⟩
      dsimp only
      omega
    have happend (is : List ClassItem) : (last.items ++ is).length + 1 ≤
        is.length + last.items.length + 1 := by
      rw [List.length_append]
      omega
    have hinsert (i : ClassItem) (is : List ClassItem) : (last.items ++ i :: is).length + 0 ≤
        is.length + last.items.length + 1 := by
      rw [List.length_append, List.length_cons]
      omega
    cases token with
    | close =>
      cases h
      exact ⟨ht, by omega⟩
    | char c => exact hmore (.char c) (last.items ++ ·) List.suffix_rfl happend h
    | collsymbol name =>
      obtain ⟨c, -, h⟩ := bind_eq_ok.mp h
      exact hmore (.char c) (last.items ++ ·) List.suffix_rfl happend h
    | equiv name =>
      obtain ⟨c, -, h⟩ := bind_eq_ok.mp h
      exact hmore .cls (last.items ++ .equiv c :: ·) List.suffix_rfl (hinsert (.equiv c)) h
    | named name =>
      obtain ⟨c, -, h⟩ := bind_eq_ok.mp h
      exact hmore .cls (last.items ++ .named c false :: ·) List.suffix_rfl
        (hinsert (.named c false)) h
    | quoted c negated =>
      exact hmore .cls (last.items ++ .named c negated :: ·) List.suffix_rfl
        (hinsert (.named c negated)) h
    | other => cases h
    | dash =>
      obtain ⟨⟨next, u⟩, hnext, h⟩ := bind_eq_ok.mp h
      have hu := classToken_readsTo hnext
      have hlen' := hu.length_lt
      have hrange (r : ClassItem) (is : List ClassItem) : (r :: is).length + 0 ≤
          is.length + 1 + 1 := by
        rw [List.length_cons]
        omega
      dsimp only at h
      split_ifs at h
      · cases h
        refine ⟨ht.trans_suffix hu.suffix, ?_⟩
        rw [List.length_append, List.length_singleton]
        omega
      · cases last with
        | cls => cases h
        | char lo =>
          cases next with
          | char hi =>
            obtain ⟨r, -, h⟩ := bind_eq_ok.mp h
            exact hmore .none (r :: ·) hu.suffix (hrange r) h
          | dash =>
            obtain ⟨r, -, h⟩ := bind_eq_ok.mp h
            exact hmore .none (r :: ·) hu.suffix (hrange r) h
          | _ => cases h
        | none =>
          obtain ⟨hread, hle⟩ := ih h
          refine ⟨ht.trans_suffix hread.suffix, ?_⟩
          rw [LastChar.items, List.length_singleton] at hle
          rw [LastChar.items, List.length_nil]
          omega

theorem charClass_reads {s : CharSet} (h : charClass cs = .ok (s, rest)) :
    ReadsTo cs rest ∧ s.items.length + rest.length + 1 ≤ cs.length ∧
      (s.negated = true → s.items.length + rest.length + 2 ≤ cs.length) := by
  rw [charClass] at h
  split_ifs at h with hneg
  · rw [bind_eq_ok] at h
    obtain ⟨⟨items, t⟩, hitems, h⟩ := h
    cases h
    obtain ⟨hread, hle⟩ := expressionTerms_reads hitems
    obtain ⟨c, u, rfl⟩ : ∃ c u, cs = c :: u := List.exists_cons_of_ne_nil (by rintro rfl; cases hneg)
    simp only [List.tail_cons, LastChar.items, List.length_nil, List.length_cons] at hread hle ⊢
    exact ⟨hread.of_suffix (List.suffix_cons c u), by omega, by omega⟩
  · obtain ⟨⟨items, t⟩, hitems, h⟩ := bind_eq_ok.mp h
    obtain ⟨hread, hle⟩ := expressionTerms_reads hitems
    cases h
    exact ⟨hread, by simpa [LastChar.items] using hle, by simp⟩

theorem bounds_suffix {b : ℕ × Option ℕ} (h : bounds cs = .ok (b, rest)) : rest <:+ cs := by
  have hds := List.dropWhile_suffix ClassName.isDigit (l := cs)
  rw [bounds] at h
  dsimp only at h
  split at h
  · cases h
  · split at h
    · cases h
    · rename_i c t hd
      rw [hd] at hds
      have ht : t <:+ cs := (List.suffix_cons c t).trans hds
      have hes := (List.dropWhile_suffix ClassName.isDigit (l := t)).trans ht
      split at h
      · obtain ⟨n, -, h⟩ := bind_eq_ok.mp h
        cases h
        exact ht
      · split at h
        · split at h
          · cases h
          · rename_i d u he
            rw [he] at hes
            have hu : u <:+ cs := (List.suffix_cons d u).trans hes
            obtain ⟨n, -, h⟩ := bind_eq_ok.mp h
            obtain ⟨m, -, h⟩ := bind_eq_ok.mp h
            split_ifs at h
            · cases h
              exact hu
            · cases h
              exact hu
        · cases h

theorem quantifier_reads {q : Option (ℕ × Option ℕ)} (h : quantifier cs = .ok (q, rest)) :
    q = none ∧ rest = cs ∨ q ≠ none ∧ ReadsTo cs rest := by
  cases cs with
  | nil =>
    cases h
    exact .inl ⟨rfl, rfl⟩
  | cons c t =>
    rw [quantifier] at h
    split at h
    · cases h
      exact .inr ⟨by simp, readsTo_cons c _⟩
    · cases h
      exact .inr ⟨by simp, readsTo_cons c _⟩
    · cases h
      exact .inr ⟨by simp, readsTo_cons c _⟩
    · obtain ⟨⟨b, r⟩, hb, he⟩ := bind_eq_ok.mp h
      cases he
      exact .inr ⟨by simp, (readsTo_cons c t).trans_suffix (bounds_suffix hb)⟩
    · cases h
      exact .inl ⟨rfl, rfl⟩

/-- `b` is `a` with one quantifier or more around it. -/
inductive Repeats (a : Node) : Node → Prop
  | once (min : ℕ) (max : Option ℕ) (greedy : Bool) : Repeats a (.rep min max greedy a)
  | again {b : Node} (min : ℕ) (max : Option ℕ) (greedy : Bool) (h : Repeats a b) :
      Repeats a (.rep min max greedy b)

theorem Repeats.inner {a b : Node} {min : ℕ} {max : Option ℕ} {greedy : Bool}
    (h : Repeats (.rep min max greedy a) b) : Repeats a b := by
  induction h with
  | once min' max' greedy' => exact .again min' max' greedy' (.once min max greedy)
  | again min' max' greedy' _ ih => exact .again min' max' greedy' ih

theorem quantifiers_reads {n : ℕ} {a b : Node} (h : quantifiers n a cs = .ok (b, rest)) :
    b = a ∧ rest = cs ∨ Repeats a b ∧ ReadsTo cs rest := by
  induction n generalizing a cs with
  | zero => cases h
  | succ n ih =>
    rw [quantifiers, bind_eq_ok] at h
    obtain ⟨⟨q, t⟩, hq, h⟩ := h
    rcases quantifier_reads hq with ⟨rfl, rfl⟩ | ⟨hne, hread⟩
    · cases h
      exact .inl ⟨rfl, rfl⟩
    · obtain ⟨⟨min, max⟩, rfl⟩ := Option.ne_none_iff_exists'.mp hne
      refine .inr ?_
      have hagain {greedy : Bool} {u : Bytes} (hu : u <:+ t)
          (h : quantifiers n (.rep min max greedy a) u = .ok (b, rest)) :
          Repeats a b ∧ ReadsTo cs rest := by
        rcases ih h with ⟨rfl, rfl⟩ | ⟨hb, hrest⟩
        · exact ⟨.once min max greedy, hread.trans_suffix hu⟩
        · exact ⟨hb.inner, hread.trans_suffix (hrest.suffix.trans hu)⟩
      dsimp only at h
      split_ifs at h
      · exact hagain (List.tail_suffix t) h
      · exact hagain List.suffix_rfl h

theorem quantified_reads {a b : Node} {g g' : ℕ} (h : quantified a g cs = .ok (b, rest, g')) :
    b = a ∧ rest = cs ∨ Repeats a b ∧ ReadsTo cs rest := by
  obtain ⟨⟨d, t⟩, hq, h⟩ := bind_eq_ok.mp h
  cases h
  exact quantifiers_reads hq

theorem closing_readsTo (h : term.closing cs = .ok rest) : ReadsTo cs rest := by
  cases cs with
  | nil => cases h
  | cons c t =>
    rw [term.closing] at h
    split_ifs at h
    cases h
    exact readsTo_cons c _

/-- The tree of an escape. -/
def escapeTree : Escaped → Node
  | .char c => .set (.single c)
  | .cls name negated => .set ⟨false, [.named name negated]⟩
  | .ref k => .backref k
  | .bound negated => .wordBoundary negated

/-- `P` holds of the atoms that texts with `T` can give and goes through the constructors. -/
structure ClosedUnder (T : Bytes → Prop) (P : Node → Prop) : Prop where
  suffix {cs rest : Bytes} (h : T cs) (hs : rest <:+ cs) : T rest
  char {c d : UInt8} (h : sym c = .char d) : P (.set (.single d))
  dot : P (.set .dot)
  set {c : UInt8} {cs rest : Bytes} {s : CharSet} (h : T (c :: cs)) (hc : sym c = .lbrack)
    (hs : charClass cs = .ok (s, rest)) : P (.set s)
  escape {c : UInt8} {cs rest : Bytes} {e : Escaped} (h : T (c :: cs)) (hc : sym c = .backslash)
    (he : escape false cs = .ok (e, rest)) : P (escapeTree e)
  empty : P .empty
  bol : P .bol
  eol : P .eol
  seq {a b : Node} (ha : P a) (hb : P b) : P (.seq a b)
  alt {a b : Node} (ha : P a) (hb : P b) : P (.alt a b)
  group {k : ℕ} {a : Node} (ha : P a) : P (.group k a)
  rep {min : ℕ} {max : Option ℕ} {greedy : Bool} {a : Node} (ha : P a) : P (.rep min max greedy a)
  look {negated : Bool} {a : Node} (ha : P a) : P (.look negated a)

/-- What is read of `cs` has `P` and leaves a suffix. -/
def Gives (P : Node → Prop) (cs : Bytes) (r : Except RegexError (Node × Bytes × ℕ)) : Prop :=
  ∀ a rest g, r = .ok (a, rest, g) → P a ∧ rest <:+ cs

namespace ClosedUnder

variable {T : Bytes → Prop} {P : Node → Prop}

theorem repeats (h : ClosedUnder T P) {a b : Node} (ha : P a) (hb : Repeats a b) : P b := by
  induction hb with
  | once min max greedy => exact h.rep ha
  | again min max greedy _ ih => exact h.rep ih

theorem quantified (h : ClosedUnder T P) {a : Node} {g : ℕ} (ha : P a) (hs : rest <:+ cs) :
    Gives P cs (quantified a g rest) := by
  intro b t g' hq
  rcases quantified_reads hq with ⟨rfl, rfl⟩ | ⟨hb, ht⟩
  · exact ⟨ha, hs⟩
  · exact ⟨h.repeats ha hb, ht.suffix.trans hs⟩

variable {n : ℕ}

theorem disjunction (h : ClosedUnder T P)
    (halt : ∀ cs g, T cs → Gives P cs (alternative n cs g))
    (hdis : ∀ cs g, T cs → Gives P cs (disjunction n cs g)) (g : ℕ) (hc : T cs) :
    Gives P cs (RegexSyntax.disjunction (n + 1) cs g) := by
  intro a rest g' hr
  rw [RegexSyntax.disjunction, bind_eq_ok] at hr
  obtain ⟨⟨b, t, g₁⟩, hb, hr⟩ := hr
  obtain ⟨hpb, hsuffix⟩ := halt cs g hc b t g₁ hb
  cases t with
  | nil =>
    cases hr
    exact ⟨hpb, hsuffix⟩
  | cons c t =>
    have ht : t <:+ cs := (List.suffix_cons c t).trans hsuffix
    dsimp only at hr
    split_ifs at hr
    · obtain ⟨⟨d, u, g₂⟩, hd, hr⟩ := bind_eq_ok.mp hr
      obtain ⟨hpd, hsuffix'⟩ := hdis t g₁ (h.suffix hc ht) d u g₂ hd
      cases hr
      exact ⟨h.alt hpb hpd, hsuffix'.trans ht⟩
    · cases hr
      exact ⟨hpb, hsuffix⟩

theorem alternative (h : ClosedUnder T P)
    (hterm : ∀ c cs g, T (c :: cs) → Gives P cs (term n c cs g))
    (halt : ∀ cs g, T cs → Gives P cs (alternative n cs g)) (g : ℕ) (hc : T cs) :
    Gives P cs (RegexSyntax.alternative (n + 1) cs g) := by
  intro a rest g' hr
  cases cs with
  | nil =>
    cases hr
    exact ⟨h.empty, List.suffix_rfl⟩
  | cons c cs =>
    rw [RegexSyntax.alternative] at hr
    split_ifs at hr
    · cases hr
      exact ⟨h.empty, List.suffix_rfl⟩
    · obtain ⟨⟨b, t, g₁⟩, hb, hr⟩ := bind_eq_ok.mp hr
      obtain ⟨⟨d, u, g₂⟩, hd, hr⟩ := bind_eq_ok.mp hr
      obtain ⟨hpb, hsuffix⟩ := hterm c cs g hc b t g₁ hb
      have ht : t <:+ c :: cs := hsuffix.trans (List.suffix_cons c cs)
      obtain ⟨hpd, hsuffix'⟩ := halt t g₁ (h.suffix hc ht) d u g₂ hd
      cases hr
      exact ⟨h.seq hpb hpd, hsuffix'.trans ht⟩

/-- The inner part of a group, with its closing bracket. -/
theorem inner (h : ClosedUnder T P) {g g₁ : ℕ} {inner t u : Bytes} {a : Node}
    (hdis : ∀ cs g, T cs → Gives P cs (RegexSyntax.disjunction n cs g)) (hc : T cs)
    (hinner : inner <:+ cs) (ha : RegexSyntax.disjunction n inner g = .ok (a, t, g₁))
    (hu : term.closing t = .ok u) : P a ∧ u <:+ cs := by
  obtain ⟨hpa, hsuffix⟩ := hdis inner g (h.suffix hc hinner) a t g₁ ha
  exact ⟨hpa, (closing_readsTo hu).suffix.trans (hsuffix.trans hinner)⟩

theorem term (h : ClosedUnder T P)
    (hdis : ∀ cs g, T cs → Gives P cs (RegexSyntax.disjunction n cs g)) {c : UInt8} (g : ℕ)
    (hc : T (c :: cs)) : Gives P cs (RegexSyntax.term (n + 1) c cs g) := by
  have hcs : T cs := h.suffix hc (List.suffix_cons c cs)
  have hdrop : cs.drop 2 <:+ cs := List.drop_suffix 2 cs
  rw [RegexSyntax.term]
  split
  · intro a rest g' hr
    cases hr
    exact ⟨h.bol, List.suffix_rfl⟩
  · intro a rest g' hr
    cases hr
    exact ⟨h.eol, List.suffix_rfl⟩
  · rename_i hsym
    intro a rest g' hr
    obtain ⟨⟨e, t⟩, he, hr⟩ := bind_eq_ok.mp hr
    have hpe := h.escape hc hsym he
    have ht := (escape_readsTo he).suffix
    cases e with
    | bound negated =>
      cases hr
      exact ⟨hpe, ht⟩
    | char d => exact h.quantified hpe ht a rest g' hr
    | cls name negated => exact h.quantified hpe ht a rest g' hr
    | ref k => exact h.quantified hpe ht a rest g' hr
  · exact h.quantified h.dot List.suffix_rfl
  · rename_i hsym
    exact h.quantified (h.char hsym) List.suffix_rfl
  · rename_i hsym
    intro a rest g' hr
    obtain ⟨⟨s, t⟩, hs, hr⟩ := bind_eq_ok.mp hr
    exact h.quantified (h.set hc hsym hs) (charClass_reads hs).1.suffix a rest g' hr
  · intro b rest g' hr
    split_ifs at hr
    · obtain ⟨⟨a, t, g₁⟩, ha, hr⟩ := bind_eq_ok.mp hr
      obtain ⟨u, hu, hr⟩ := bind_eq_ok.mp hr
      cases hr
      obtain ⟨hpa, hsuffix⟩ := h.inner hdis hcs hdrop ha hu
      exact ⟨h.look hpa, hsuffix⟩
    · obtain ⟨⟨a, t, g₁⟩, ha, hr⟩ := bind_eq_ok.mp hr
      obtain ⟨u, hu, hr⟩ := bind_eq_ok.mp hr
      cases hr
      obtain ⟨hpa, hsuffix⟩ := h.inner hdis hcs hdrop ha hu
      exact ⟨h.look hpa, hsuffix⟩
    · obtain ⟨⟨a, t, g₁⟩, ha, hr⟩ := bind_eq_ok.mp hr
      obtain ⟨u, hu, hr⟩ := bind_eq_ok.mp hr
      obtain ⟨hpa, hsuffix⟩ := h.inner hdis hcs hdrop ha hu
      exact h.quantified hpa hsuffix b rest g' hr
    · obtain ⟨⟨a, t, g₁⟩, ha, hr⟩ := bind_eq_ok.mp hr
      obtain ⟨u, hu, hr⟩ := bind_eq_ok.mp hr
      obtain ⟨hpa, hsuffix⟩ := h.inner hdis hcs List.suffix_rfl ha hu
      exact h.quantified (h.group hpa) hsuffix b rest g' hr
  all_goals
    intro a rest g' hr
    cases hr

/-- The three readers at once, by induction on the fuel. -/
theorem reads (h : ClosedUnder T P) (n : ℕ) :
    (∀ cs g, T cs → Gives P cs (RegexSyntax.disjunction n cs g)) ∧
    (∀ cs g, T cs → Gives P cs (RegexSyntax.alternative n cs g)) ∧
    (∀ c cs g, T (c :: cs) → Gives P cs (RegexSyntax.term n c cs g)) := by
  induction n with
  | zero =>
    refine ⟨?_, ?_, ?_⟩
    · intro cs g _ a rest g' hr
      cases hr
    · intro cs g _ a rest g' hr
      cases hr
    · intro c cs g _ a rest g' hr
      cases hr
  | succ n ih =>
    obtain ⟨hdis, halt, hterm⟩ := ih
    exact ⟨fun cs g hc => h.disjunction halt hdis g hc,
      fun cs g hc => h.alternative hterm halt g hc,
      fun c cs g hc => h.term hdis g hc⟩

end ClosedUnder

theorem closedUnder_true : ClosedUnder (fun _ => True) (fun _ => True) := by
  constructor <;> intros <;> trivial

variable {n g g' : ℕ} {a : Node}

theorem disjunction_suffix (h : disjunction n cs g = .ok (a, rest, g')) : rest <:+ cs :=
  ((closedUnder_true.reads n).1 cs g trivial a rest g' h).2

theorem term_suffix {c : UInt8} (h : term n c cs g = .ok (a, rest, g')) : rest <:+ cs :=
  ((closedUnder_true.reads n).2.2 c cs g trivial a rest g' h).2

theorem alternative_shape (h : alternative n cs g = .ok (a, rest, g')) :
    a = .empty ∨ ∃ b c, a = .seq b c := by
  cases n with
  | zero => cases h
  | succ n =>
    cases cs with
    | nil =>
      cases h
      exact .inl rfl
    | cons c cs =>
      rw [alternative] at h
      split_ifs at h
      · cases h
        exact .inl rfl
      · obtain ⟨⟨b, t, g₁⟩, -, h⟩ := bind_eq_ok.mp h
        obtain ⟨⟨d, u, g₂⟩, -, h⟩ := bind_eq_ok.mp h
        cases h
        exact .inr ⟨b, d, rfl⟩

theorem disjunction_shape (h : disjunction n cs g = .ok (a, rest, g')) :
    (a = .empty ∨ ∃ b c, a = .seq b c) ∨ ∃ b c, a = .alt b c := by
  cases n with
  | zero => cases h
  | succ n =>
    rw [disjunction, bind_eq_ok] at h
    obtain ⟨⟨b, t, g₁⟩, hb, h⟩ := h
    have hshape := alternative_shape hb
    cases t with
    | nil =>
      cases h
      exact .inl hshape
    | cons c t =>
      dsimp only at h
      split_ifs at h
      · obtain ⟨⟨d, u, g₂⟩, -, h⟩ := bind_eq_ok.mp h
        cases h
        exact .inr ⟨b, d, rfl⟩
      · cases h
        exact .inl hshape

theorem Repeats.of_set {a : Node} {min : ℕ} {max : Option ℕ} {greedy : Bool} {s : CharSet}
    (h : Repeats a (.rep min max greedy (.set s))) : a = .set s := by
  cases h with
  | once => rfl
  | again _ _ _ h => cases h

/-- A quantifier behind a set takes a character; a class that excludes one also takes its brackets,
its `^` and its items. -/
theorem term_repeated_set {c : UInt8} {min : ℕ} {max : Option ℕ} {greedy : Bool} {s : CharSet}
    (h : term n c cs g = .ok (.rep min max greedy (.set s), rest, g')) :
    ReadsTo cs rest ∧
      (s.negated = true → s ≠ .dot → s.items.length + rest.length + 3 ≤ cs.length) := by
  have hquantified {a : Node} {t : Bytes} {g₁ : ℕ} (ha : ∀ b, a ≠ .rep min max greedy b)
      (h : quantified a g₁ t = .ok (.rep min max greedy (.set s), rest, g')) :
      a = .set s ∧ ReadsTo t rest := by
    rcases quantified_reads h with ⟨hb, -⟩ | ⟨hb, ht⟩
    · exact absurd hb.symm (ha _)
    · exact ⟨hb.of_set, ht⟩
  cases n with
  | zero => cases h
  | succ n =>
    rw [term] at h
    split at h
    · cases h
    · cases h
    · obtain ⟨⟨e, t⟩, he, h⟩ := bind_eq_ok.mp h
      have ht := (escape_readsTo he).suffix
      cases e with
      | bound negated => cases h
      | char d =>
        obtain ⟨hs, hrest⟩ := hquantified (by simp) h
        cases hs
        exact ⟨hrest.of_suffix ht, by simp [CharSet.single]⟩
      | cls name negated =>
        obtain ⟨hs, hrest⟩ := hquantified (by simp) h
        cases hs
        exact ⟨hrest.of_suffix ht, by simp⟩
      | ref k => exact absurd (hquantified (by simp) h).1 (by simp)
    · obtain ⟨hs, hrest⟩ := hquantified (by simp) h
      cases hs
      exact ⟨hrest, fun _ hdot => absurd rfl hdot⟩
    · obtain ⟨hs, hrest⟩ := hquantified (by simp) h
      cases hs
      exact ⟨hrest, by simp [CharSet.single]⟩
    · obtain ⟨⟨s', t⟩, hs', h⟩ := bind_eq_ok.mp h
      obtain ⟨hread, -, hneg⟩ := charClass_reads hs'
      obtain ⟨hs, hrest⟩ := hquantified (by simp) h
      cases hs
      refine ⟨hrest.of_suffix hread.suffix, fun hn _ => ?_⟩
      have hlen := hrest.length_lt
      have hneg := hneg hn
      omega
    · split_ifs at h
      · obtain ⟨⟨a, t, g₁⟩, -, h⟩ := bind_eq_ok.mp h
        obtain ⟨u, -, h⟩ := bind_eq_ok.mp h
        cases h
      · obtain ⟨⟨a, t, g₁⟩, -, h⟩ := bind_eq_ok.mp h
        obtain ⟨u, -, h⟩ := bind_eq_ok.mp h
        cases h
      · obtain ⟨⟨a, t, g₁⟩, ha, h⟩ := bind_eq_ok.mp h
        obtain ⟨u, -, h⟩ := bind_eq_ok.mp h
        have hshape := disjunction_shape ha
        have hrep (b : Node) : a ≠ .rep min max greedy b := by
          rintro rfl
          simp at hshape
        obtain ⟨rfl, -⟩ := hquantified hrep h
        simp at hshape
      · obtain ⟨⟨a, t, g₁⟩, -, h⟩ := bind_eq_ok.mp h
        obtain ⟨u, -, h⟩ := bind_eq_ok.mp h
        exact absurd (hquantified (by simp) h).1 (by simp)
    all_goals cases h

/-- An escape, a class or a group takes a character more than its first. -/
theorem term_readsTo {c : UInt8} (hc : sym c ∈ [.backslash, .lbrack, .lparen])
    (h : term n c cs g = .ok (a, rest, g')) : ReadsTo cs rest := by
  have hquantified {a b : Node} {t : Bytes} {g₁ : ℕ} (ht : ReadsTo cs t)
      (h : quantified a g₁ t = .ok (b, rest, g')) : ReadsTo cs rest := by
    rcases quantified_reads h with ⟨-, rfl⟩ | ⟨-, hrest⟩
    · exact ht
    · exact ht.trans_suffix hrest.suffix
  have hclosing {k g₁ g₂ : ℕ} {inner t u : Bytes} {a : Node} (hinner : inner <:+ cs)
      (ha : disjunction k inner g₁ = .ok (a, t, g₂)) (hu : term.closing t = .ok u) :
      ReadsTo cs u := (closing_readsTo hu).of_suffix ((disjunction_suffix ha).trans hinner)
  have hdrop : cs.drop 2 <:+ cs := List.drop_suffix 2 cs
  cases n with
  | zero => cases h
  | succ n =>
    rw [term] at h
    split at h
    case h_3 =>
      obtain ⟨⟨e, t⟩, he, h⟩ := bind_eq_ok.mp h
      have ht := escape_readsTo he
      cases e with
      | bound negated =>
        cases h
        exact ht
      | char d => exact hquantified ht h
      | cls name negated => exact hquantified ht h
      | ref k => exact hquantified ht h
    case h_6 =>
      obtain ⟨⟨s, t⟩, hs, h⟩ := bind_eq_ok.mp h
      exact hquantified (charClass_reads hs).1 h
    case h_7 =>
      split_ifs at h
      · obtain ⟨⟨a, t, g₁⟩, ha, h⟩ := bind_eq_ok.mp h
        obtain ⟨u, hu, h⟩ := bind_eq_ok.mp h
        cases h
        exact hclosing hdrop ha hu
      · obtain ⟨⟨a, t, g₁⟩, ha, h⟩ := bind_eq_ok.mp h
        obtain ⟨u, hu, h⟩ := bind_eq_ok.mp h
        cases h
        exact hclosing hdrop ha hu
      · obtain ⟨⟨a, t, g₁⟩, ha, h⟩ := bind_eq_ok.mp h
        obtain ⟨u, hu, h⟩ := bind_eq_ok.mp h
        exact hquantified (hclosing hdrop ha hu) h
      · obtain ⟨⟨a, t, g₁⟩, ha, h⟩ := bind_eq_ok.mp h
        obtain ⟨u, hu, h⟩ := bind_eq_ok.mp h
        exact hquantified (hclosing List.suffix_rfl ha hu) h
    all_goals simp_all

end MessageBroker.RegexReading
