import Mathlib.Data.List.TakeWhile
import Mathlib.Data.Int.Basic
import Mathlib.Algebra.Group.Nat.Defs
import Mathlib.Algebra.Group.Int.Defs

/-!
# Byte strings, C strings and byte-addressed memory

The data every other module reads and writes. A `char *` is a list of bytes that
is scanned up to its first zero byte; a block that is written through computed
offsets is a function from offsets to bytes, so that a store outside the block
stays visible as a store at an offset.
-/
namespace MessageBroker.ByteStrings

abbrev Bytes := List UInt8

/-- The code of an ASCII character. -/
def byte (c : Char) : UInt8 := c.toNat.toUInt8

/-- The bytes of an ASCII literal, without its terminator. -/
def ascii (s : String) : Bytes := s.toList.map byte

/-- The number that decimal digits stand for. -/
def decimalValue (ds : Bytes) : ℕ := ds.foldl (fun v d => 10 * v + (d.toNat - 48)) 0

/-- The bytes up to the first zero byte, or all of them. -/
def untilNul (bs : Bytes) : Bytes := bs.takeWhile (· ≠ 0)

/-- The string a `char *` at the front of `bs` denotes. There is none when the
scan for the terminator leaves the object. -/
@[irreducible] def readCStr (bs : Bytes) : Option Bytes :=
  if 0 ∈ bs then some (untilNul bs) else none

@[simp] theorem untilNul_append_zero (s rest : Bytes) (h : 0 ∉ s) :
    untilNul (s ++ 0 :: rest) = s := by
  have hs : ∀ b ∈ s, decide (b ≠ 0) = true := by
    intro b hb
    simpa using fun h0 : b = 0 => h (h0 ▸ hb)
  rw [untilNul, List.takeWhile_append_of_pos hs]
  simp

@[simp] theorem readCStr_append_zero (s rest : Bytes) (h : 0 ∉ s) :
    readCStr (s ++ 0 :: rest) = some s := by
  simp [readCStr, h]

theorem zero_notMem_untilNul (bs : Bytes) : 0 ∉ untilNul bs := by
  intro h
  simpa using List.mem_takeWhile_imp h

/-- A terminated string does not depend on what follows it. -/
theorem untilNul_append_of_mem {s : Bytes} (rest : Bytes) (h : 0 ∈ s) :
    untilNul (s ++ rest) = untilNul s := by
  induction s with
  | nil => simp at h
  | cons c s ih =>
    by_cases hc : c = 0
    · simp [untilNul, hc]
    · have hs : 0 ∈ s := by
        rcases List.mem_cons.mp h with h0 | hs
        · exact absurd h0.symm hc
        · exact hs
      simpa [untilNul, hc] using ih hs

theorem untilNul_of_notMem {s : Bytes} (h : 0 ∉ s) : untilNul s = s := by
  rw [untilNul, List.takeWhile_eq_self_iff]
  intro b hb
  simpa using fun h0 : b = 0 => h (h0 ▸ hb)

@[simp] theorem untilNul_append_replicate (s : Bytes) (k : ℕ) :
    untilNul (s ++ List.replicate k 0) = untilNul s := by
  by_cases hs : 0 ∈ s
  · exact untilNul_append_of_mem _ hs
  · cases k with
    | zero => simp
    | succ k => rw [List.replicate_succ, untilNul_append_zero _ _ hs, untilNul_of_notMem hs]

/-- A string with its terminator is the front of what is scanned. -/
theorem take_length_untilNul_succ {s : Bytes} (h : 0 ∈ s) :
    s.take ((untilNul s).length + 1) = untilNul s ++ [0] := by
  induction s with
  | nil => simp at h
  | cons c s ih =>
    by_cases hc : c = 0
    · simp [untilNul, hc]
    · have hs : 0 ∈ s := by
        rcases List.mem_cons.mp h with h0 | hs
        · exact absurd h0.symm hc
        · exact hs
      simpa [untilNul, hc] using ih hs

theorem exists_eq_untilNul_append {s : Bytes} (h : 0 ∈ s) : ∃ rest, s = untilNul s ++ 0 :: rest := by
  refine ⟨s.drop ((untilNul s).length + 1), ?_⟩
  rw [List.append_cons, ← take_length_untilNul_succ h, List.take_append_drop]

theorem readCStr_append_of_mem {s : Bytes} (rest : Bytes) (h : 0 ∈ s) :
    readCStr (s ++ rest) = some (untilNul s) := by
  rw [readCStr, if_pos (List.mem_append_left rest h), untilNul_append_of_mem rest h]

/-- A string is read as it is exactly if its terminator comes next. -/
theorem readCStr_append_iff {s rest : Bytes} (h : 0 ∉ s) :
    readCStr (s ++ rest) = some s ↔ ∃ more, rest = 0 :: more := by
  constructor
  · intro hread
    cases rest with
    | nil => simp [readCStr, h] at hread
    | cons b rest =>
      by_cases hb : b = 0
      · exact ⟨rest, congrArg (· :: rest) hb⟩
      · -- the byte behind the string is part of what is read
        have hs : ∀ c ∈ s, decide (c ≠ 0) = true := fun c hc => by
          simpa using fun h0 : c = 0 => h (h0 ▸ hc)
        rw [readCStr] at hread
        split_ifs at hread
        rw [untilNul, List.takeWhile_append_of_pos hs, List.takeWhile_cons_of_pos (by simpa)] at hread
        simp at hread
  · rintro ⟨more, hrest⟩
    rw [hrest, readCStr_append_zero s more h]

/-- Behind a string that is not terminated come zero bytes. -/
theorem readCStr_append_replicate {s t : Bytes} {k : ℕ}
    (h : readCStr (s ++ List.replicate k 0) = some t) : t = untilNul s := by
  by_cases hs : 0 ∈ s
  · rw [readCStr_append_of_mem _ hs] at h
    exact (Option.some.inj h).symm
  · cases k with
    | zero => simp [readCStr, hs] at h
    | succ k =>
      rw [List.replicate_succ, readCStr_append_zero _ _ hs] at h
      rw [untilNul_of_notMem hs]
      exact (Option.some.inj h).symm

/-- A 32-bit integer as x86-64 stores it, least significant byte first. -/
def le32 (n : ℕ) : Bytes :=
  [UInt8.ofNat n, UInt8.ofNat (n / 256), UInt8.ofNat (n / 256 ^ 2), UInt8.ofNat (n / 256 ^ 3)]

def readLE32 (b0 b1 b2 b3 : UInt8) : ℕ :=
  b0.toNat + 256 * b1.toNat + 256 ^ 2 * b2.toNat + 256 ^ 3 * b3.toNat

@[simp] theorem length_le32 (n : ℕ) : (le32 n).length = 4 := rfl

theorem readLE32_lt (b0 b1 b2 b3 : UInt8) : readLE32 b0 b1 b2 b3 < 2 ^ 32 := by
  have h0 := b0.toNat_lt
  have h1 := b1.toNat_lt
  have h2 := b2.toNat_lt
  have h3 := b3.toNat_lt
  simp only [readLE32]
  omega

theorem readLE32_le32 (n : ℕ) (h : n < 2 ^ 32) :
    readLE32 (UInt8.ofNat n) (UInt8.ofNat (n / 256)) (UInt8.ofNat (n / 256 ^ 2))
      (UInt8.ofNat (n / 256 ^ 3)) = n := by
  simp only [readLE32, UInt8.toNat_ofNat']
  omega

theorem le32_readLE32 (b0 b1 b2 b3 : UInt8) : le32 (readLE32 b0 b1 b2 b3) = [b0, b1, b2, b3] := by
  have h0 := b0.toNat_lt
  have h1 := b1.toNat_lt
  have h2 := b2.toNat_lt
  have h3 := b3.toNat_lt
  simp only [le32, readLE32, List.cons.injEq, ← UInt8.toNat_inj, UInt8.toNat_ofNat', and_true]
  omega

/-- The `int` whose object representation is the 32-bit word `n`. -/
def int32 (n : ℕ) : ℤ := if n < 2 ^ 31 then (n : ℤ) else (n : ℤ) - 2 ^ 32

theorem int32_of_lt {n : ℕ} (h : n < 2 ^ 31) : int32 n = n := if_pos h

/-- Bytes addressed by their offset from the start of an object. -/
abbrev Memory := ℕ → UInt8

namespace Memory

/-- The `n` bytes from offset `off` on. -/
def read (m : Memory) (off n : ℕ) : Bytes := (List.range n).map (fun i => m (off + i))

/-- A copy of `bs` to offset `off`. -/
def store (m : Memory) (off : ℕ) (bs : Bytes) : Memory :=
  fun a => if off ≤ a then bs.getD (a - off) (m a) else m a

/-- The object whose first bytes are `bs` and whose other bytes are zero. -/
def ofBytes (bs : Bytes) : Memory := fun a => bs.getD a 0

@[simp] theorem length_read (m : Memory) (off n : ℕ) : (m.read off n).length = n := by
  simp [read]

theorem getElem_read (m : Memory) (off n i : ℕ) (h : i < (m.read off n).length) :
    (m.read off n)[i] = m (off + i) := by
  simp [read]

/-- A string in a region that holds a zero byte ends there. -/
theorem exists_readCStr {m : Memory} {off n i : ℕ} (hi : i < n) (h : m (off + i) = 0) :
    ∃ s, readCStr (m.read off n) = some s := by
  have hmem : 0 ∈ m.read off n := List.mem_map.mpr ⟨i, List.mem_range.mpr hi, h⟩
  refine ⟨untilNul (m.read off n), ?_⟩
  rw [readCStr, if_pos hmem]

theorem read_add (m : Memory) (off a b : ℕ) :
    m.read off (a + b) = m.read off a ++ m.read (off + a) b := by
  simp [read, List.range_add, Function.comp_def, Nat.add_assoc]

theorem read_congr {m m' : Memory} {off n : ℕ} (h : ∀ a < off + n, m a = m' a) :
    m.read off n = m'.read off n := by
  apply List.map_congr_left
  intro i hi
  have hlt := List.mem_range.mp hi
  exact h _ (by omega)

theorem read_eq_take (m : Memory) (off : ℕ) {k n : ℕ} (h : k ≤ n) :
    m.read off k = (m.read off n).take k := by
  obtain ⟨j, rfl⟩ := Nat.exists_eq_add_of_le h
  rw [read_add, List.take_left' (length_read m off k)]

/-- What was stored is read back. -/
theorem read_store_self (m : Memory) (off : ℕ) (bs : Bytes) :
    (m.store off bs).read off bs.length = bs := by
  apply List.ext_getElem
  · simp
  · intro i hi hb
    rw [getElem_read]
    simp [store, hb]

theorem read_ofBytes (bs : Bytes) : (ofBytes bs).read 0 bs.length = bs := by
  have hstore : ofBytes bs = store (fun _ => 0) 0 bs := by
    funext a
    simp [ofBytes, store]
  rw [hstore, read_store_self]

/-- A store behind a region leaves the region as it was. -/
theorem read_store_of_le (m : Memory) (off a n : ℕ) (bs : Bytes) (h : a + n ≤ off) :
    (m.store off bs).read a n = m.read a n := by
  apply List.ext_getElem
  · simp
  · intro i hi _
    rw [getElem_read, getElem_read]
    simp only [length_read] at hi
    simp [store, show ¬ off ≤ a + i by omega]

/-- A store in front of a region leaves the region as it was. -/
theorem read_store_of_ge (m : Memory) (off a n : ℕ) (bs : Bytes) (h : off + bs.length ≤ a) :
    (m.store off bs).read a n = m.read a n := by
  apply List.ext_getElem
  · simp
  · intro i hi _
    rw [getElem_read, getElem_read]
    simp [store, show off ≤ a + i by omega, List.getD_eq_getElem?_getD,
      List.getElem?_eq_none (show bs.length ≤ a + i - off by omega)]

/-- What was stored at the front of a region, and the region behind it. -/
theorem read_store_front (m : Memory) (off n : ℕ) (bs : Bytes) (h : bs.length ≤ n) :
    (m.store off bs).read off n = bs ++ m.read (off + bs.length) (n - bs.length) := by
  obtain ⟨k, rfl⟩ := Nat.exists_eq_add_of_le h
  rw [read_add, read_store_self, read_store_of_ge _ _ _ _ _ le_rfl, Nat.add_sub_cancel_left]

@[simp] theorem read_zero (off n : ℕ) : read (fun _ => 0) off n = List.replicate n 0 := by
  simp [read, List.map_const']

/-- The front of a zeroed object after a copy to its start. -/
theorem read_store_zero (bs : Bytes) (n : ℕ) :
    (store (fun _ => 0) 0 bs).read 0 n = bs.take n ++ List.replicate (n - bs.length) 0 := by
  apply List.ext_getElem
  · simp
    omega
  · intro i hi _
    rw [getElem_read]
    by_cases hlt : i < bs.length
    · simp only [length_read] at hi
      rw [List.getElem_append_left (by simp; omega)]
      simp [store, hlt]
    · rw [List.getElem_append_right (by simp; omega)]
      simp [store, hlt]

/-- Reading the rest of what was stored at the start, and on behind it. -/
theorem read_store_zero_append (m : Memory) (a b : Bytes) (k : ℕ) :
    (m.store 0 (a ++ b)).read a.length (b.length + k) =
      b ++ m.read (a.length + b.length) k := by
  have hself := read_store_self m 0 (a ++ b)
  rw [List.length_append, read_add, Nat.zero_add] at hself
  have hb := (List.append_inj hself (by simp)).2
  rw [read_add, hb, read_store_of_ge _ _ _ _ _ (by simp)]

/-- A copy behind a copy. -/
theorem store_append (m : Memory) (off : ℕ) (xs ys : Bytes) :
    (m.store off xs).store (off + xs.length) ys = m.store off (xs ++ ys) := by
  funext a
  simp only [store, List.getD_eq_getElem?_getD]
  by_cases hbehind : off + xs.length ≤ a
  · have hoff : off ≤ a := by omega
    have hnone : xs[a - off]? = none := List.getElem?_eq_none (by omega)
    rw [if_pos hbehind, if_pos hoff, if_pos hoff, List.getElem?_append_right (by omega), hnone,
      Option.getD_none, Nat.sub_sub]
  · rw [if_neg hbehind]
    by_cases hoff : off ≤ a
    · rw [if_pos hoff, if_pos hoff, List.getElem?_append_left (by omega)]
    · rw [if_neg hoff, if_neg hoff]

/-- Appending to what has been read so far. -/
theorem read_store_append (m : Memory) (off : ℕ) (bs : Bytes) :
    (m.store off bs).read 0 (off + bs.length) = m.read 0 off ++ bs := by
  rw [read_add, Nat.zero_add, read_store_self, read_store_of_le _ _ _ _ _ (by omega)]

/-- Overwriting the middle of what is read. -/
theorem read_store_middle {m : Memory} {n : ℕ} {a b b' c : Bytes}
    (h : m.read 0 n = a ++ (b ++ c)) (hb : b'.length = b.length) :
    (m.store a.length b').read 0 n = a ++ (b' ++ c) := by
  have hn : n = a.length + (b'.length + c.length) := by
    have hlen := congrArg List.length h
    simpa [hb] using hlen
  subst hn
  rw [read_add, read_add, Nat.zero_add] at h ⊢
  obtain ⟨ha, hbc⟩ := List.append_inj h (by simp)
  obtain ⟨-, hc⟩ := List.append_inj hbc (by simp [hb])
  rw [read_store_of_le _ _ _ _ _ (by omega), read_store_self, read_store_of_ge _ _ _ _ _ le_rfl,
    ha, hc]

end Memory

end MessageBroker.ByteStrings
