import Mathlib

/-!
# Strings as lists of characters

The string operations that key-value programs use, on `Str := List Char`: prefix and suffix cuts,
the split at the last separator, `TrimSpace`, comma lists and decimal numerals. The order of `Str`
is lexicographic on code points, the byte order of UTF-8.

* `splitLast_eq_some`: the split at the last separator is the one whose tail has no separator.
* `split_join`: a comma list reads back, when no member has a comma.
-/

namespace Dendra

/-- A string, as its characters. -/
abbrev Str : Type := List Char

/-- Membership in a list of strings is decided by this one. -/
instance : LawfulBEq Str := inferInstance

namespace Str

/-- `strings.Contains`. -/
def contains (s sub : Str) : Bool := decide (sub <:+: s)

/-- `strings.CutPrefix`: `s` without `pfx` in front of it. -/
def cutPrefix (s pfx : Str) : Option Str :=
  if pfx.isPrefixOf s then some (s.drop pfx.length) else none

/-- `strings.CutSuffix`: `s` without `suf` at its end. -/
def cutSuffix (s suf : Str) : Option Str :=
  if suf.isSuffixOf s then some (s.take (s.length - suf.length)) else none

/-- `strings.TrimPrefix`. -/
def trimPrefix (s pfx : Str) : Str := (cutPrefix s pfx).getD s

/-- `strings.TrimSuffix`. -/
def trimSuffix (s suf : Str) : Str := (cutSuffix s suf).getD s

/-- `s` on both sides of the last occurrence of `sep` (`strings.LastIndex`). -/
def splitLast (sep : Str) : Str → Option (Str × Str)
  | [] => if sep = [] then some ([], []) else none
  | a :: as =>
    match splitLast sep as with
    | some (l, r) => some (a :: l, r)
    | none => if sep.isPrefixOf (a :: as) then some ([], (a :: as).drop sep.length) else none

/-- `unicode.IsSpace`. -/
def isSpace (a : Char) : Bool :=
  let n := a.toNat
  (9 ≤ n && n ≤ 13) || n == 32 || n == 0x85 || n == 0xA0 || n == 0x1680 ||
    (0x2000 ≤ n && n ≤ 0x200A) || n == 0x2028 || n == 0x2029 || n == 0x202F || n == 0x205F ||
    n == 0x3000

/-- `strings.TrimSpace`. -/
def trimSpace (s : Str) : Str := ((s.dropWhile isSpace).reverse.dropWhile isSpace).reverse

/-- `strings.Split(s, sep)` for a separator of one character. -/
def split (s : Str) (sep : Char) : List Str := s.splitOn sep

/-- `strings.Join(l, sep)` for a separator of one character. -/
def join (l : List Str) (sep : Char) : Str := [sep].intercalate l

/-- The length in bytes (`len`). -/
def byteLen (s : Str) : Nat := (s.map Char.utf8Size).sum

/-- The UTF-8 bytes. -/
def utf8 (s : Str) : List UInt8 := s.flatMap String.utf8EncodeChar

/-- The value of a run of decimal digits. -/
def digits (s : Str) : Option Nat :=
  if s ≠ [] ∧ s.all Char.isDigit then
    some (s.foldl (fun n a => 10 * n + (a.toNat - '0'.toNat)) 0)
  else none

/-- `strconv.ParseInt(s, 10, 64)`, without its range error. -/
def parseInt : Str → Option Int
  | '-' :: s => (digits s).map fun n => -(n : Int)
  | '+' :: s => (digits s).map Int.ofNat
  | s => (digits s).map Int.ofNat

/-- `strconv.ParseUint(s, 10, 64)`. -/
def parseUint (s : Str) : Option Nat := (digits s).filter (· < 2 ^ 64)

/-- `strconv.FormatUint(n, 10)`, `%d`. -/
def formatUint (n : Nat) : Str := Nat.toDigits 10 n

/-- `%d` of an integer. -/
def formatInt (n : Int) : Str :=
  if n < 0 then '-' :: formatUint n.natAbs else formatUint n.natAbs

/-- `hex.EncodeToString`. -/
def hex (bs : List UInt8) : Str :=
  bs.flatMap fun b => [Nat.digitChar (b.toNat / 16), Nat.digitChar (b.toNat % 16)]

/-- The value of a hex digit. -/
def hexValue (a : Char) : UInt8 :=
  if a.isDigit then UInt8.ofNat (a.toNat - '0'.toNat)
  else if 'a' ≤ a then UInt8.ofNat (a.toNat - 'a'.toNat + 10)
  else UInt8.ofNat (a.toNat - 'A'.toNat + 10)

/-- The bytes of a run of hex digit pairs. -/
def unhex : Str → Option (List UInt8)
  | [] => some []
  | a :: b :: s => (unhex s).map fun l => (16 * hexValue a + hexValue b) :: l
  | [_] => none

/-- `hex.DecodeString(s)` succeeds with `n` bytes. -/
def isHexOf (n : Nat) (s : Str) : Bool :=
  s.length == 2 * n && s.all fun a => a.isDigit || ('a' ≤ a && a ≤ 'f') || ('A' ≤ a && a ≤ 'F')

/-! ## Prefixes and suffixes -/

theorem cutPrefix_append (p s : Str) : cutPrefix (p ++ s) p = some s := by
  simp [cutPrefix]

theorem cutPrefix_eq_some {s p r : Str} : cutPrefix s p = some r ↔ s = p ++ r := by
  unfold cutPrefix
  constructor
  · intro h
    split at h
    · next hp =>
      obtain ⟨t, rfl⟩ := List.isPrefixOf_iff_prefix.1 hp
      simpa using h
    · cases h
  · rintro rfl
    simp

theorem trimPrefix_append (p s : Str) : trimPrefix (p ++ s) p = s := by
  simp [trimPrefix, cutPrefix_append]

theorem cutSuffix_append (s t : Str) : cutSuffix (s ++ t) t = some s := by
  simp [cutSuffix]

theorem cutSuffix_eq_some {s t r : Str} : cutSuffix s t = some r ↔ s = r ++ t := by
  unfold cutSuffix
  constructor
  · intro h
    split at h
    · next ht =>
      obtain ⟨q, rfl⟩ := List.isSuffixOf_iff_suffix.1 ht
      simpa using h
    · cases h
  · rintro rfl
    simp

theorem cutSuffix_eq_none {s t : Str} : cutSuffix s t = none ↔ ¬ t <:+ s := by
  unfold cutSuffix
  rw [← List.isSuffixOf_iff_suffix]
  split <;> simp_all

/-! ## The last separator -/

theorem splitLast_eq_none {sep s : Str} (hsep : sep ≠ []) :
    splitLast sep s = none ↔ ¬ sep <:+: s := by
  induction s with
  | nil => simp [splitLast, hsep]
  | cons a as ih =>
    unfold splitLast
    cases h : splitLast sep as with
    | none =>
      rw [ih] at h
      rw [List.infix_cons_iff]
      by_cases hp : sep <+: a :: as
      · simp [List.isPrefixOf_iff_prefix.2 hp, hp]
      · have : sep.isPrefixOf (a :: as) = false := by
          rw [← Bool.not_eq_true, List.isPrefixOf_iff_prefix]; exact hp
        simp [this, hp, h]
    | some lr =>
      have hin : sep <:+: as := by
        by_contra hn
        rw [ih.2 hn] at h
        cases h
      have : sep <:+: a :: as := hin.trans (List.suffix_cons a as).isInfix
      simp [this]

/-- What the split at the last separator returns: both sides, and no later occurrence. -/
theorem splitLast_eq_some {sep s l r : Str} (hsep : sep ≠ []) (h : splitLast sep s = some (l, r)) :
    s = l ++ sep ++ r ∧ ¬ sep <:+: (sep ++ r).tail := by
  induction s generalizing l with
  | nil => simp [splitLast, hsep] at h
  | cons a as ih =>
    unfold splitLast at h
    cases hs : splitLast sep as with
    | none =>
      rw [hs] at h
      simp only at h
      split at h
      · next hp =>
        obtain ⟨t, ht⟩ := List.isPrefixOf_iff_prefix.1 hp
        simp only [Option.some.injEq, Prod.mk.injEq] at h
        obtain ⟨rfl, rfl⟩ := h
        rw [← ht, List.drop_left]
        refine ⟨rfl, ?_⟩
        rw [ht, List.tail_cons]
        exact (splitLast_eq_none hsep).1 hs
      · cases h
    | some lr =>
      obtain ⟨l', r'⟩ := lr
      rw [hs] at h
      simp only [Option.some.injEq, Prod.mk.injEq] at h
      obtain ⟨rfl, rfl⟩ := h
      obtain ⟨h1, h2⟩ := ih hs
      exact ⟨by rw [h1]; rfl, h2⟩

/-- The split at an occurrence with no later one. -/
theorem splitLast_of_last {sep l r : Str} (hsep : sep ≠ []) (h : ¬ sep <:+: (sep ++ r).tail) :
    splitLast sep (l ++ sep ++ r) = some (l, r) := by
  induction l with
  | nil =>
    obtain ⟨a, as, rfl⟩ := List.exists_cons_of_ne_nil hsep
    rw [List.nil_append, List.cons_append]
    unfold splitLast
    rw [List.cons_append, List.tail_cons] at h
    rw [(splitLast_eq_none hsep).2 h]
    simp
  | cons a as ih =>
    rw [List.cons_append, List.cons_append]
    unfold splitLast
    rw [ih]

/-! ## Comma lists -/

theorem split_join {l : List Str} {sep : Char} (h : ∀ s ∈ l, sep ∉ s) (hl : l ≠ []) :
    split (join l sep) sep = l :=
  List.splitOn_intercalate sep h hl

theorem join_split (s : Str) (sep : Char) : join (split s sep) sep = s :=
  List.intercalate_splitOn sep

/-- The characters of a joined list. -/
theorem mem_join {l : List Str} {sep a : Char} (h : a ∈ join l sep) : a = sep ∨ ∃ s ∈ l, a ∈ s := by
  induction l with
  | nil => cases h
  | cons s l ih =>
    cases l with
    | nil => exact .inr ⟨s, .head _, by simpa [join] using h⟩
    | cons t l =>
      have e : join (s :: t :: l) sep = s ++ sep :: join (t :: l) sep := by
        simp [join, List.intercalate]
      rw [e, List.mem_append, List.mem_cons] at h
      rcases h with h | h | h
      · exact .inr ⟨s, .head _, h⟩
      · exact .inl h
      · exact (ih h).imp_right fun ⟨u, hu, ha⟩ => ⟨u, .tail _ hu, ha⟩

theorem trimSpace_of_forall {s : Str} (h : ∀ a ∈ s, isSpace a = false) : trimSpace s = s := by
  have hd : ∀ t : Str, (∀ a ∈ t, isSpace a = false) → t.dropWhile isSpace = t := by
    intro t ht
    cases t with
    | nil => rfl
    | cons a as => simp [ht a]
  rw [trimSpace, hd s h, hd _ (by simpa using h), List.reverse_reverse]

end Str

end Dendra
