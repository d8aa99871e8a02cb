import MessageBroker.ByteStrings

/-!
# ECMAScript regular expressions over bytes: trees and reader

The grammar is the one `std::regex` reads by default: the pattern grammar of ECMA-262, third
edition, with the bracket forms `[:name:]`, `[.name.]` and `[=name=]` added to character classes.
Where the library takes more than the grammar has, so does the reader: a `]` or `}` that closes
nothing stands for itself, as does an escaped character without a meaning of its own, and what is
quantified can be quantified again. The locale is "C" and a `char` is signed.

The reader recurses on a fuel that `parse` takes from the length of the pattern.
-/
namespace MessageBroker.RegexSyntax
open ByteStrings

/-- The error categories of `std::regex_constants` that reading can end in. -/
inductive RegexError
  | collate | ctype | escape | backref | brack | paren | brace | badbrace | range | complexity
  deriving DecidableEq, Repr

def between (lo hi c : UInt8) : Bool := decide (lo ≤ c) && decide (c ≤ hi)

inductive ClassName
  | alnum | alpha | blank | cntrl | digit | graph | lower | print | punct | space
  | upper | xdigit | word
  deriving DecidableEq, Repr

namespace ClassName

def isUpper (c : UInt8) : Bool := between (byte 'A') (byte 'Z') c
def isLower (c : UInt8) : Bool := between (byte 'a') (byte 'z') c
def isDigit (c : UInt8) : Bool := between (byte '0') (byte '9') c
def isAlnum (c : UInt8) : Bool := isUpper c || isLower c || isDigit c

def mem : ClassName → UInt8 → Bool
  | .upper, c => isUpper c
  | .lower, c => isLower c
  | .digit, c => isDigit c
  | .alpha, c => isUpper c || isLower c
  | .alnum, c => isAlnum c
  | .word, c => isAlnum c || decide (c = byte '_')
  | .xdigit, c => isDigit c || between (byte 'a') (byte 'f') c || between (byte 'A') (byte 'F') c
  | .blank, c => decide (c = 32) || decide (c = 9)
  | .space, c => decide (c = 32) || between 9 13 c
  | .cntrl, c => decide (c < 32) || decide (c = 127)
  | .graph, c => between 33 126 c
  | .print, c => between 32 126 c
  | .punct, c => between 33 126 c && !isAlnum c

/-- The names `[:name:]` may use. -/
def names : List (Bytes × ClassName) :=
  [(ascii "alnum", .alnum), (ascii "alpha", .alpha), (ascii "blank", .blank),
   (ascii "cntrl", .cntrl), (ascii "digit", .digit), (ascii "graph", .graph),
   (ascii "lower", .lower), (ascii "print", .print), (ascii "punct", .punct),
   (ascii "space", .space), (ascii "upper", .upper), (ascii "xdigit", .xdigit),
   (ascii "d", .digit), (ascii "s", .space), (ascii "w", .word)]

end ClassName

/-- The names `[.name.]` and `[=name=]` may use, each at the code of its character. -/
def collateNames : List String :=
  ["NUL", "SOH", "STX", "ETX", "EOT", "ENQ", "ACK", "alert", "backspace", "tab", "newline",
   "vertical-tab", "form-feed", "carriage-return", "SO", "SI", "DLE", "DC1", "DC2", "DC3", "DC4",
   "NAK", "SYN", "ETB", "CAN", "EM", "SUB", "ESC", "IS4", "IS3", "IS2", "IS1", "space",
   "exclamation-mark", "quotation-mark", "number-sign", "dollar-sign", "percent-sign", "ampersand",
   "apostrophe", "left-parenthesis", "right-parenthesis", "asterisk", "plus-sign", "comma",
   "hyphen", "period", "slash", "zero", "one", "two", "three", "four", "five", "six", "seven",
   "eight", "nine", "colon", "semicolon", "less-than-sign", "equals-sign", "greater-than-sign",
   "question-mark", "commercial-at", "A", "B", "C", "D", "E", "F", "G", "H", "I", "J", "K", "L",
   "M", "N", "O", "P", "Q", "R", "S", "T", "U", "V", "W", "X", "Y", "Z", "left-square-bracket",
   "backslash", "right-square-bracket", "circumflex", "underscore", "grave-accent", "a", "b", "c",
   "d", "e", "f", "g", "h", "i", "j", "k", "l", "m", "n", "o", "p", "q", "r", "s", "t", "u", "v",
   "w", "x", "y", "z", "left-curly-bracket", "vertical-line", "right-curly-bracket", "tilde", "DEL"]

def collateElement (name : Bytes) : Except RegexError UInt8 :=
  let i := collateNames.findIdx (fun s => ascii s = name)
  if i < collateNames.length then .ok (UInt8.ofNat i) else .error .collate

def signedChar (c : UInt8) : ℤ := if c < 128 then c.toNat else (c.toNat : ℤ) - 256

def toLower (c : UInt8) : UInt8 := if ClassName.isUpper c then c + 32 else c

def characterClass (name : Bytes) : Except RegexError ClassName :=
  match ClassName.names.find? (·.1 = name.map toLower) with
  | none => .error .collate
  | some (_, cls) => .ok cls

inductive ClassItem
  | char (c : UInt8)
  | range (lo hi : UInt8)
  | named (name : ClassName) (negated : Bool)
  | equiv (c : UInt8)
  deriving DecidableEq, Repr

def ClassItem.mem : ClassItem → UInt8 → Bool
  | .char d, c => decide (c = d)
  | .range lo hi, c =>
    decide (signedChar lo ≤ signedChar c) && decide (signedChar c ≤ signedChar hi)
  | .named name negated, c => name.mem c != negated
  | .equiv d, c => decide (toLower c = toLower d)

structure CharSet where
  negated : Bool
  items : List ClassItem
  deriving DecidableEq, Repr

def CharSet.mem (s : CharSet) (c : UInt8) : Bool := s.items.any (·.mem c) != s.negated

def CharSet.single (c : UInt8) : CharSet := ⟨false, [.char c]⟩

/-- `.` is every character except the line terminators. -/
def CharSet.dot : CharSet := ⟨true, [.char 10, .char 13]⟩

@[simp] theorem CharSet.mem_single (c d : UInt8) : (single d).mem c = decide (c = d) := by
  simp [mem, single, ClassItem.mem]

theorem CharSet.mem_dot (c : UInt8) : dot.mem c = true ↔ c ≠ 10 ∧ c ≠ 13 := by
  simp [mem, dot, ClassItem.mem]

inductive Node
  | empty
  | set (s : CharSet)
  | seq (a b : Node)
  | alt (a b : Node)
  | group (index : ℕ) (a : Node)
  | backref (index : ℕ)
  | rep (min : ℕ) (max : Option ℕ) (greedy : Bool) (a : Node)
  | bol
  | eol
  | wordBoundary (negated : Bool)
  | look (negated : Bool) (a : Node)
  deriving DecidableEq, Repr

/-- The groups that are closed behind the tree, if each back reference in it names one that is
closed in front of the reference. -/
def Node.closes : Node → List ℕ → Option (List ℕ)
  | .seq a b, closed | .alt a b, closed => (a.closes closed).bind b.closes
  | .group k a, closed => (a.closes closed).map (k :: ·)
  | .rep _ _ _ a, closed | .look _ a, closed => a.closes closed
  | .backref k, closed => if k ∈ closed then some closed else none
  | .empty, closed | .set _, closed | .bol, closed | .eol, closed | .wordBoundary _, closed =>
    some closed

/-- What a character means outside brackets. -/
inductive Sym
  | caret | dollar | backslash | dot | star | plus | question | lparen | rparen | lbrack | lbrace
  | bar
  | char (c : UInt8)
  deriving DecidableEq, Repr

def sym (c : UInt8) : Sym :=
  if c = byte '^' then .caret else if c = byte '$' then .dollar
  else if c = byte '\\' then .backslash else if c = byte '.' then .dot
  else if c = byte '*' then .star else if c = byte '+' then .plus
  else if c = byte '?' then .question else if c = byte '(' then .lparen
  else if c = byte ')' then .rparen else if c = byte '[' then .lbrack
  else if c = byte '{' then .lbrace else if c = byte '|' then .bar
  else .char c

def hexDigit (c : UInt8) : Option ℕ :=
  if between (byte '0') (byte '9') c then some (c.toNat - 48)
  else if between (byte 'a') (byte 'f') c then some (c.toNat - 87)
  else if between (byte 'A') (byte 'F') c then some (c.toNat - 55)
  else none

/-- Exactly `n` hexadecimal digits. -/
def readHex : ℕ → ℕ → Bytes → Option (ℕ × Bytes)
  | 0, acc, cs => some (acc, cs)
  | n + 1, acc, c :: cs => (hexDigit c).bind (fun d => readHex n (16 * acc + d) cs)
  | _ + 1, _, [] => none

inductive Escaped
  | char (c : UInt8)
  | cls (name : ClassName) (negated : Bool)
  | ref (index : ℕ)
  | bound (negated : Bool)
  deriving DecidableEq, Repr

/-- `\xHH` and `\uHHHH`, whose value is cut down to a `char`. -/
def hexEscape (n : ℕ) (cs : Bytes) : Except RegexError (Escaped × Bytes) :=
  match readHex n 0 cs with
  | some (v, rest) => .ok (.char (UInt8.ofNat v), rest)
  | none => .error .escape

/-- A number that has to be an `int`. -/
def intValue (ds : Bytes) : Except RegexError ℕ :=
  if decimalValue ds < 2 ^ 31 then .ok (decimalValue ds) else .error .backref

/-- The escapes of one letter. -/
def letterEscape (inBracket : Bool) (c : UInt8) : Option Escaped :=
  if c = byte '0' then some (.char 0)
  else if c = byte 'b' then some (if inBracket then .char 8 else .bound false)
  else if c = byte 'f' then some (.char 12)
  else if c = byte 'n' then some (.char 10)
  else if c = byte 'r' then some (.char 13)
  else if c = byte 't' then some (.char 9)
  else if c = byte 'v' then some (.char 11)
  else if c = byte 'B' then some (.bound true)
  else if c = byte 'd' then some (.cls .digit false)
  else if c = byte 'D' then some (.cls .digit true)
  else if c = byte 's' then some (.cls .space false)
  else if c = byte 'S' then some (.cls .space true)
  else if c = byte 'w' then some (.cls .word false)
  else if c = byte 'W' then some (.cls .word true)
  else none

/-- What follows a backslash. -/
def escape (inBracket : Bool) : Bytes → Except RegexError (Escaped × Bytes)
  | [] => .error .escape
  | c :: rest => match letterEscape inBracket c with
    | some e => .ok (e, rest)
    | none =>
      if c = byte 'c' then
        match rest with
        | l :: rest' => .ok (.char l, rest')
        | [] => .error .escape
      else if c = byte 'x' then hexEscape 2 rest
      else if c = byte 'u' then hexEscape 4 rest
      else if ClassName.isDigit c then do
        let index ← intValue ((c :: rest).takeWhile ClassName.isDigit)
        .ok (.ref index, (c :: rest).dropWhile ClassName.isDigit)
      else .ok (.char c, rest)

inductive ClassToken
  | close
  | dash
  | char (c : UInt8)
  | named (name : Bytes)
  | collsymbol (name : Bytes)
  | equiv (name : Bytes)
  | quoted (name : ClassName) (negated : Bool)
  | other
  deriving DecidableEq, Repr

/-- The name up to the next `d`, which a `]` has to follow. -/
def eatClass (d : UInt8) (cs : Bytes) : Except RegexError (Bytes × Bytes) :=
  match cs.dropWhile (· ≠ d) with
  | _ :: b :: rest =>
    if b = byte ']' then .ok (cs.takeWhile (· ≠ d), rest)
    else .error (if d = byte ':' then .ctype else .collate)
  | _ => .error (if d = byte ':' then .ctype else .collate)

/-- The next token in brackets. -/
def classToken : Bytes → Except RegexError (ClassToken × Bytes)
  | [] => .error .brack
  | c :: rest =>
    if c = byte '-' then .ok (.dash, rest)
    else if c = byte '[' then match rest with
      | [] => .error .brack
      | d :: rest' =>
        if d = byte '.' then (eatClass d rest').map (fun q => (.collsymbol q.1, q.2))
        else if d = byte ':' then (eatClass d rest').map (fun q => (.named q.1, q.2))
        else if d = byte '=' then (eatClass d rest').map (fun q => (.equiv q.1, q.2))
        else .ok (.char c, rest)
    else if c = byte ']' then .ok (.close, rest)
    else if c = byte '\\' then (escape true rest).map (fun q => (match q.1 with
      | .char d => .char d
      | .cls name negated => .quoted name negated
      | .ref _ => .other
      | .bound _ => .other, q.2))
    else .ok (.char c, rest)

/-- What a dash may continue: a character that is read but not yet added, or a class. -/
inductive LastChar
  | none
  | char (c : UInt8)
  | cls
  deriving DecidableEq, Repr

def LastChar.items : LastChar → List ClassItem
  | .char c => [.char c]
  | .none => []
  | .cls => []

def makeRange (lo hi : UInt8) : Except RegexError ClassItem :=
  if signedChar lo ≤ signedChar hi then .ok (.range lo hi) else .error .range

/-- The items up to the closing bracket. -/
def expressionTerms : ℕ → LastChar → Bytes → Except RegexError (List ClassItem × Bytes)
  | 0, _, _ => .error .complexity
  | n + 1, last, cs => do
    let (token, rest) ← classToken cs
    match token with
    | .close => .ok (last.items, rest)
    | .char c => do
      let (items, rest') ← expressionTerms n (.char c) rest
      .ok (last.items ++ items, rest')
    | .collsymbol name => do
      let c ← collateElement name
      let (items, rest') ← expressionTerms n (.char c) rest
      .ok (last.items ++ items, rest')
    | .equiv name => do
      let c ← collateElement name
      let (items, rest') ← expressionTerms n .cls rest
      .ok (last.items ++ .equiv c :: items, rest')
    | .named name => do
      let cls ← characterClass name
      let (items, rest') ← expressionTerms n .cls rest
      .ok (last.items ++ .named cls false :: items, rest')
    | .quoted cls negated => do
      let (items, rest') ← expressionTerms n .cls rest
      .ok (last.items ++ .named cls negated :: items, rest')
    | .other => .error .brack
    | .dash => do
      let (next, rest₂) ← classToken rest
      if next = .close then .ok (last.items ++ [.char (byte '-')], rest₂)
      else match last, next with
        | .cls, _ => .error .range
        | .char lo, .char hi => do
          let r ← makeRange lo hi
          let (items, rest') ← expressionTerms n .none rest₂
          .ok (r :: items, rest')
        | .char lo, .dash => do
          let r ← makeRange lo (byte '-')
          let (items, rest') ← expressionTerms n .none rest₂
          .ok (r :: items, rest')
        | .char _, _ => .error .range
        -- the dash may be the start of a range itself
        | .none, _ => expressionTerms n (.char (byte '-')) rest

/-- What follows an opening bracket. -/
def charClass (cs : Bytes) : Except RegexError (CharSet × Bytes) := do
  if cs.head? = some (byte '^') then
    let (items, rest) ← expressionTerms cs.length .none cs.tail
    .ok (⟨true, items⟩, rest)
  else
    let (items, rest) ← expressionTerms (cs.length + 1) .none cs
    .ok (⟨false, items⟩, rest)

/-- `n}`, `n,}` or `n,m}`. -/
def bounds (cs : Bytes) : Except RegexError ((ℕ × Option ℕ) × Bytes) :=
  let ds := cs.takeWhile ClassName.isDigit
  if ds = [] then .error (if cs = [] then .brace else .badbrace)
  else match cs.dropWhile ClassName.isDigit with
    | [] => .error .brace
    | c :: rest =>
      if c = byte '}' then do
        let n ← intValue ds
        .ok ((n, some n), rest)
      else if c = byte ',' then
        let es := rest.takeWhile ClassName.isDigit
        match rest.dropWhile ClassName.isDigit with
        | [] => .error .brace
        | d :: rest' => do
          let n ← intValue ds
          let m ← intValue es
          if d = byte ',' then .error .brace
          else if d ≠ byte '}' then .error .badbrace
          else if es = [] then .ok ((n, none), rest')
          else if n ≤ m then .ok ((n, some m), rest')
          else .error .badbrace
      else .error .badbrace

def quantifier : Bytes → Except RegexError (Option (ℕ × Option ℕ) × Bytes)
  | [] => .ok (none, [])
  | c :: rest => match sym c with
    | .star => .ok (some (0, none), rest)
    | .plus => .ok (some (1, none), rest)
    | .question => .ok (some (0, some 1), rest)
    | .lbrace => do
      let (b, rest') ← bounds rest
      .ok (some b, rest')
    | _ => .ok (none, c :: rest)

/-- An atom with all that quantifies it. -/
def quantifiers : ℕ → Node → Bytes → Except RegexError (Node × Bytes)
  | 0, _, _ => .error .complexity
  | n + 1, a, cs => do
    match ← quantifier cs with
    | (none, rest) => .ok (a, rest)
    | (some (min, max), rest) =>
      if rest.head? = some (byte '?') then quantifiers n (.rep min max false a) rest.tail
      else quantifiers n (.rep min max true a) rest

def quantified (a : Node) (g : ℕ) (cs : Bytes) : Except RegexError (Node × Bytes × ℕ) := do
  let (b, rest) ← quantifiers (cs.length + 1) a cs
  .ok (b, rest, g)

/-- No term starts with such a character: what is read ends in front of it. -/
def EndsAlternative (c : UInt8) : Prop :=
  sym c ∈ [.bar, .rparen, .star, .plus, .question, .lbrace]

instance (c : UInt8) : Decidable (EndsAlternative c) := inferInstanceAs (Decidable (_ ∈ _))

mutual

/-- `g` groups have been opened so far; the result counts those opened by the end. -/
def disjunction : ℕ → Bytes → ℕ → Except RegexError (Node × Bytes × ℕ)
  | 0, _, _ => .error .complexity
  | n + 1, cs, g => do
    let (a, rest, g₁) ← alternative n cs g
    match rest with
    | [] => .ok (a, [], g₁)
    | c :: rest' =>
      if sym c = .bar then
        let (b, rest₂, g₂) ← disjunction n rest' g₁
        .ok (.alt a b, rest₂, g₂)
      else .ok (a, c :: rest', g₁)

def alternative : ℕ → Bytes → ℕ → Except RegexError (Node × Bytes × ℕ)
  | 0, _, _ => .error .complexity
  | _ + 1, [], g => .ok (.empty, [], g)
  | n + 1, c :: cs, g =>
    if EndsAlternative c then .ok (.empty, c :: cs, g)
    else do
      let (a, rest, g₁) ← term n c cs g
      let (b, rest₂, g₂) ← alternative n rest g₁
      .ok (.seq a b, rest₂, g₂)

/-- One term, which starts with `c`. -/
def term : ℕ → UInt8 → Bytes → ℕ → Except RegexError (Node × Bytes × ℕ)
  | 0, _, _, _ => .error .complexity
  | n + 1, c, cs, g => match sym c with
    | .caret => .ok (.bol, cs, g)
    | .dollar => .ok (.eol, cs, g)
    | .backslash => do
      match ← escape false cs with
      | (.bound negated, rest) => .ok (.wordBoundary negated, rest, g)
      | (.char d, rest) => quantified (.set (.single d)) g rest
      | (.cls name negated, rest) => quantified (.set ⟨false, [.named name negated]⟩) g rest
      | (.ref k, rest) => quantified (.backref k) g rest
    | .dot => quantified (.set .dot) g cs
    | .char d => quantified (.set (.single d)) g cs
    | .lbrack => do
      let (s, rest) ← charClass cs
      quantified (.set s) g rest
    | .lparen =>
      if ascii "?=" <+: cs then do
        let (a, rest, g₁) ← disjunction n (cs.drop 2) g
        let rest' ← closing rest
        .ok (.look false a, rest', g₁)
      else if ascii "?!" <+: cs then do
        let (a, rest, g₁) ← disjunction n (cs.drop 2) g
        let rest' ← closing rest
        .ok (.look true a, rest', g₁)
      else if ascii "?:" <+: cs then do
        let (a, rest, g₁) ← disjunction n (cs.drop 2) g
        let rest' ← closing rest
        quantified a g₁ rest'
      else if cs.head? = some (byte '?') then .error .paren
      else do
        let (a, rest, g₁) ← disjunction n cs (g + 1)
        let rest' ← closing rest
        quantified (.group (g + 1) a) g₁ rest'
    | .star | .plus | .question | .lbrace | .rparen | .bar => .error .paren
where
  closing : Bytes → Except RegexError Bytes
    | [] => .error .paren
    | c :: rest => if sym c = .rparen then .ok rest else .error .paren

end

/-- Reads a whole pattern. The back references are looked at last, so another error comes first. -/
def parse (pattern : Bytes) : Except RegexError Node := do
  let (a, rest, _) ← disjunction (3 * pattern.length + 3) pattern 0
  if rest ≠ [] then .error .paren
  else if a.closes [] = none then .error .backref
  else .ok a

end MessageBroker.RegexSyntax
