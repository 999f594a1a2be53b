import Dendra.Lib.Json

/-!
# The tokens of a JSON text

Each scanner reads a token back from its text, and reads the same token from a longer text.

* `scanChar_escape`, `scanString_quoted`, `scanString_append`: strings.
* `scanNumber_formatInt`, `scanNumber_append`: numbers. `Stops`: where a number that goes on ends.
* `IsFloat`, `scanAtom_float`: floats, by their texts. `scanAtom_append`: words and numbers.
-/

namespace Dendra.Json

/-! ## Characters -/

section Characters

variable {s r q : Str} {c : Char} {n : Nat}

theorem skipBlank_of_head {c : Char} (h : isBlank c = false) : skipBlank (c :: s) = c :: s := by
  simp [skipBlank, h]

/-- What is skipped before a token is skipped before a longer text. -/
theorem skipBlank_append (h : skipBlank s = c :: r) (q : Str) : skipBlank (s ++ q) = c :: (r ++ q) := by
  have hne : ¬(s.dropWhile isBlank).isEmpty := by
    rw [show s.dropWhile isBlank = c :: r from h]
    exact Bool.false_ne_true
  rw [skipBlank, List.dropWhile_append, if_neg hne]
  exact congrArg (· ++ q) h

theorem hexDigit_digitChar : ∀ d < 16, hexDigit (Nat.digitChar d) = some d := by decide

theorem scanHex4_hex4 (h : n < 65536) (r : Str) : scanHex4 (hex4 n ++ r) = some (n, r) := by
  have hd (k : Nat) : hexDigit (Nat.digitChar (k % 16)) = some (k % 16) :=
    hexDigit_digitChar _ (Nat.mod_lt _ (by decide))
  simp only [hex4, List.cons_append, List.nil_append, scanHex4, hd, Option.bind_eq_bind, Option.bind_some,
    Option.pure_def, Option.some.injEq, Prod.mk.injEq, and_true]
  omega

theorem scanHex4_append (h : scanHex4 s = some (n, r)) (q : Str) : scanHex4 (s ++ q) = some (n, r ++ q) := by
  unfold scanHex4 at h
  split at h
  · simp only [Option.bind_eq_bind, Option.bind_eq_some_iff, Option.pure_def, Option.some.injEq,
      Prod.mk.injEq] at h
    obtain ⟨a, ha, b, hb, c, hc, d, hd, rfl, rfl⟩ := h
    simp [scanHex4, ha, hb, hc, hd]
  · cases h

/-- A character of one code unit. -/
theorem scanUnicode_unit (h : c.toNat < 65536) (r : Str) : scanUnicode (hex4 c.toNat ++ r) = some (c, r) := by
  have hv : c.toNat < 0xd800 ∨ 0xdfff < c.toNat := by
    obtain h | h := c.valid
    · exact .inl h
    · exact .inr h.1
  simp only [scanUnicode, scanHex4_hex4 h, Option.bind_eq_bind, Option.bind_some]
  rw [if_neg (by omega), if_neg (by omega), Char.ofNat_toNat]
  rfl

theorem scanUnicode_surrogates {u w : Nat} (hu : 0xd800 ≤ u ∧ u < 0xdc00) (hw : 0xdc00 ≤ w ∧ w < 0xe000)
    (r : Str) : scanUnicode (hex4 u ++ (unicodeEscape w ++ r)) =
      some (Char.ofNat (65536 + (u - 0xd800) * 1024 + (w - 0xdc00)), r) := by
  have hu' : u < 65536 := hu.2.trans (by decide)
  have hw' : w < 65536 := hw.2.trans (by decide)
  simp only [scanUnicode, scanHex4_hex4 hu', scanHex4_hex4 hw', unicodeEscape, List.cons_append,
    Option.bind_eq_bind, Option.bind_some]
  rw [if_pos hu, if_pos hw]
  rfl

/-- A character of two. -/
theorem scanUnicode_pair (h : 65536 ≤ c.toNat) (r : Str) :
    scanUnicode (hex4 (0xd800 + (c.toNat - 65536) / 1024) ++
      (unicodeEscape (0xdc00 + (c.toNat - 65536) % 1024) ++ r)) = some (c, r) := by
  have hv : c.toNat < 0x110000 := by
    obtain h | h := c.valid
    · exact Nat.lt_trans h (by decide)
    · exact h.2
  rw [scanUnicode_surrogates (by omega) (by omega), Nat.add_sub_cancel_left, Nat.add_sub_cancel_left]
  have heq : 65536 + (c.toNat - 65536) / 1024 * 1024 + (c.toNat - 65536) % 1024 = c.toNat := by omega
  rw [heq, Char.ofNat_toNat]

theorem scanUnicode_append (h : scanUnicode s = some (c, r)) (q : Str) :
    scanUnicode (s ++ q) = some (c, r ++ q) := by
  unfold scanUnicode at h
  rw [Option.bind_eq_bind, Option.bind_eq_some_iff] at h
  obtain ⟨⟨u, r₁⟩, hu, h⟩ := h
  simp only [scanUnicode, scanHex4_append hu, Option.bind_eq_bind, Option.bind_some]
  dsimp only at h
  split at h
  · next hhigh =>
    rw [if_pos hhigh]
    split at h
    · next r₂ =>
      rw [Option.bind_eq_some_iff] at h
      obtain ⟨⟨w, r₃⟩, hw, h⟩ := h
      dsimp only at h
      split at h
      · next hlow =>
        obtain ⟨rfl, rfl⟩ := Prod.mk.inj (Option.some.inj h)
        simp only [List.cons_append, scanHex4_append hw, Option.bind_some]
        rw [if_pos hlow]
        rfl
      · cases h
    · cases h
  · next hhigh =>
    rw [if_neg hhigh]
    split at h
    · cases h
    · next hlow =>
      obtain ⟨rfl, rfl⟩ := Prod.mk.inj (Option.some.inj h)
      rw [if_neg hlow]
      rfl

/-- What has an escape of its own is read back from it. -/
theorem unescape_of_shortEscape {d : Char} (h : shortEscape c = some d) :
    unescape d = some c ∧ d ≠ 'u' ∧ 32 ≤ d.toNat ∧ d.toNat < 127 := by
  unfold shortEscape at h
  split at h <;> first | (obtain rfl := Option.some.inj h; decide) | cases h

theorem ne_of_shortEscape (h : shortEscape c = none) : c ≠ '\\' ∧ c ≠ '"' := by
  constructor <;> rintro rfl <;> cases h

theorem scanChar_unicode (r : Str) : scanChar ('\\' :: 'u' :: r) = scanUnicode r := rfl

theorem scanChar_short {d : Char} (h : d ≠ 'u') (r : Str) :
    scanChar ('\\' :: d :: r) = (unescape d).map fun c => (c, r) := by
  unfold scanChar
  split
  · next heq => exact absurd (List.cons.inj (List.cons.inj heq).2).1 h
  · next heq =>
    obtain ⟨rfl, rfl⟩ := List.cons.inj (List.cons.inj heq).2
    rfl
  · next hno heq =>
    obtain ⟨rfl, rfl⟩ := List.cons.inj heq
    exact absurd rfl (hno d r rfl)
  · next heq => cases heq

theorem scanChar_plain (h₁ : c ≠ '\\') (h₂ : c ≠ '"') (h₃ : 32 ≤ c.toNat) (r : Str) :
    scanChar (c :: r) = some (c, r) := by
  unfold scanChar
  split
  · next heq => exact absurd (List.cons.inj heq).1 h₁
  · next heq => exact absurd (List.cons.inj heq).1 h₁
  · next heq =>
    obtain ⟨rfl, rfl⟩ := List.cons.inj heq
    rw [if_neg]
    rintro (h | h | h)
    · exact h₁ h
    · exact h₂ h
    · omega
  · next heq => cases heq

theorem scanChar_append (h : scanChar s = some (c, r)) (q : Str) : scanChar (s ++ q) = some (c, r ++ q) := by
  unfold scanChar at h
  split at h
  · exact (scanChar_unicode _).trans (scanUnicode_append h q)
  · next d r' hno =>
    rw [Option.map_eq_some_iff] at h
    obtain ⟨c', hc, heq⟩ := h
    obtain ⟨rfl, rfl⟩ := Prod.mk.inj heq
    refine (scanChar_short ?_ (r' ++ q)).trans (by rw [hc]; rfl)
    exact hno
  · split at h
    · cases h
    · next hplain =>
      obtain ⟨rfl, rfl⟩ := Prod.mk.inj (Option.some.inj h)
      rw [not_or, not_or] at hplain
      exact scanChar_plain hplain.1 hplain.2.1 (not_lt.1 hplain.2.2) _
  · cases h

/-- A character is read back from its text. -/
theorem scanChar_escape (ascii : Bool) (c : Char) (r : Str) : scanChar (escape ascii c ++ r) = some (c, r) := by
  unfold escape
  split
  · next d hd =>
    obtain ⟨hc, hu, -⟩ := unescape_of_shortEscape hd
    exact (scanChar_short hu r).trans (by rw [hc]; rfl)
  · next hno =>
    obtain ⟨h₁, h₂⟩ := ne_of_shortEscape hno
    split
    · exact (scanChar_unicode _).trans (scanUnicode_unit (by omega) r)
    · next hlow =>
      split
      · exact scanChar_plain h₁ h₂ (not_lt.1 hlow) r
      · split
        · next hunit => exact (scanChar_unicode _).trans (scanUnicode_unit hunit r)
        · next hpair =>
          rw [List.append_assoc]
          exact (scanChar_unicode _).trans (scanUnicode_pair (not_lt.1 hpair) r)

/-- A character's text does not start as the end of a string does. -/
theorem escape_head (ascii : Bool) (c : Char) : ∃ d t, escape ascii c = d :: t ∧ d ≠ '"' := by
  unfold escape
  split
  · exact ⟨_, _, rfl, by decide⟩
  · next hno =>
    split
    · exact ⟨_, _, rfl, by decide⟩
    · split
      · exact ⟨c, [], rfl, (ne_of_shortEscape hno).2⟩
      · split
        · exact ⟨_, _, rfl, by decide⟩
        · exact ⟨_, _, rfl, by decide⟩

end Characters

/-! ## Strings -/

section Strings

variable {s r : Str} {n m : Nat} {t : Str}

theorem scanString_quote (n : Nat) (r : Str) : scanString (n + 1) ('"' :: r) = some ([], r) := by
  simp [scanString]

theorem scanString_char {c : Char} (h : scanChar s = some (c, r)) (hq : s.head? ≠ some '"') :
    scanString (n + 1) s = (scanString n r).map fun p => (c :: p.1, p.2) := by
  have hs : scanString (n + 1) s =
      (scanChar s).bind fun p => (scanString n p.2).bind fun q => some (p.1 :: q.1, q.2) := by
    conv_lhs => unfold scanString
    split
    · simp at hq
    · rfl
  rw [hs, h, Option.bind_some]
  cases scanString n r <;> rfl

/-- A string is read back from its text. -/
theorem scanString_quoted (ascii : Bool) (s : Str) (r : Str) (h : s.length < n) :
    scanString n (s.flatMap (escape ascii) ++ '"' :: r) = some (s, r) := by
  induction s generalizing n with
  | nil =>
    obtain ⟨n, rfl⟩ := Nat.exists_eq_succ_of_ne_zero (Nat.ne_of_gt h)
    exact scanString_quote n r
  | cons c s ih =>
    obtain ⟨n, rfl⟩ := Nat.exists_eq_succ_of_ne_zero (Nat.ne_of_gt (Nat.zero_lt_of_lt h))
    have hq : (escape ascii c ++ (s.flatMap (escape ascii) ++ '"' :: r)).head? ≠ some '"' := by
      obtain ⟨d, t, heq, hd⟩ := escape_head ascii c
      rw [heq]
      exact fun hhead => hd (Option.some.inj hhead)
    rw [List.flatMap_cons, List.append_assoc, Nat.succ_eq_add_one, scanString_char (scanChar_escape ascii c _) hq,
      ih (by simpa using h)]
    rfl

/-- What follows a string does not change how it is read. -/
theorem scanString_append (h : scanString n s = some (t, r)) (hle : n ≤ m) (q : Str) :
    scanString m (s ++ q) = some (t, r ++ q) := by
  induction n generalizing s t m with
  | zero => cases h
  | succ n ih =>
    obtain ⟨m, rfl⟩ := Nat.exists_eq_succ_of_ne_zero (Nat.ne_of_gt (Nat.zero_lt_of_lt hle))
    unfold scanString at h
    split at h
    · obtain ⟨rfl, rfl⟩ := Prod.mk.inj (Option.some.inj h)
      exact scanString_quote m _
    · next hq =>
      rw [Option.bind_eq_bind, Option.bind_eq_some_iff] at h
      obtain ⟨⟨c, r₁⟩, hc, h⟩ := h
      dsimp only at h
      rw [Option.bind_eq_bind, Option.bind_eq_some_iff] at h
      obtain ⟨⟨t', r₂⟩, ht, h⟩ := h
      obtain ⟨rfl, rfl⟩ := Prod.mk.inj (Option.some.inj h)
      have hhead : (s ++ q).head? ≠ some '"' := by
        cases s with
        | nil => cases hc
        | cons a s =>
          rintro heq
          obtain rfl := Option.some.inj heq
          exact hq s rfl
      rw [Nat.succ_eq_add_one, scanString_char (scanChar_append hc q) hhead,
        ih ht (Nat.le_of_succ_le_succ hle)]
      rfl

end Strings

/-! ## Numbers -/

/-- A character that a number may go on with. -/
def isNumeric (c : Char) : Bool := c.isDigit || c = '.' || c = 'e' || c = 'E' || c = '+' || c = '-'

/-- A number stops here: something follows, and it is of no number. -/
def Stops (r : Str) : Prop := ∃ c t, r = c :: t ∧ isNumeric c = false

section Numbers

variable {s r q ds : Str} {v : Json}

theorem Stops.ne_nil (h : Stops r) : r ≠ [] := by
  obtain ⟨c, t, rfl, -⟩ := h
  exact List.cons_ne_nil c t

/-- What follows a value in a list or an object stops a number. -/
theorem stops_of_skipBlank {c : Char} (h : skipBlank s = c :: r) (hc : isNumeric c = false) : Stops s := by
  cases s with
  | nil => cases h
  | cons a s =>
    refine ⟨a, s, rfl, ?_⟩
    by_cases ha : isBlank a = true
    · simp only [isBlank, Bool.or_eq_true, decide_eq_true_eq] at ha
      obtain ((rfl | rfl) | rfl) | rfl := ha <;> decide
    · rw [skipBlank_of_head (by simpa using ha)] at h
      obtain ⟨rfl, -⟩ := List.cons.inj h
      exact hc

theorem takeWhile_append_of_rest {p : Char → Bool} (h : s.dropWhile p ≠ []) (q : Str) :
    (s ++ q).takeWhile p = s.takeWhile p ∧ (s ++ q).dropWhile p = s.dropWhile p ++ q := by
  have hlen : (s.takeWhile p).length ≠ s.length := by
    intro heq
    refine h ?_
    have hsum := congrArg List.length (List.takeWhile_append_dropWhile (p := p) (l := s))
    rw [List.length_append] at hsum
    exact List.eq_nil_of_length_eq_zero (by omega)
  rw [List.takeWhile_append, if_neg hlen, List.dropWhile_append, if_neg (by simpa using h)]
  exact ⟨rfl, rfl⟩

theorem scanDigits_append (h : scanDigits s = some (ds, r)) (hr : r ≠ []) (q : Str) :
    scanDigits (s ++ q) = some (ds, r ++ q) := by
  unfold scanDigits at h
  split at h
  · obtain ⟨rfl, rfl⟩ := Prod.mk.inj (Option.some.inj h)
    rfl
  · next hzero =>
    split at h
    · cases h
    · next hne =>
      obtain ⟨rfl, rfl⟩ := Prod.mk.inj (Option.some.inj h)
      obtain ⟨htake, hdrop⟩ := takeWhile_append_of_rest hr q
      unfold scanDigits
      split
      · next t ht =>
        cases s with
        | nil => exact absurd rfl hne
        | cons c s =>
          obtain ⟨rfl, -⟩ := List.cons.inj ht
          exact absurd rfl (hzero s)
      · rw [htake, hdrop, if_neg hne]

theorem scanFraction_of_head {c : Char} (h : c ≠ '.') (t : Str) : scanFraction (c :: t) = ([], c :: t) := by
  unfold scanFraction
  split
  · next heq => exact absurd (List.cons.inj heq).1 h
  · rfl

theorem scanFraction_point (t : Str) : scanFraction ('.' :: t) =
    if t.takeWhile Char.isDigit = [] then ([], '.' :: t)
    else ('.' :: t.takeWhile Char.isDigit, t.dropWhile Char.isDigit) := rfl

theorem scanExponent_cons (c : Char) (t : Str) : scanExponent (c :: t) =
    if (c = 'e' ∨ c = 'E') ∧ (scanSign t).2.takeWhile Char.isDigit ≠ [] then
      (c :: ((scanSign t).1 ++ (scanSign t).2.takeWhile Char.isDigit), (scanSign t).2.dropWhile Char.isDigit)
    else ([], c :: t) := rfl

theorem scanFraction_append {c : Char} {t : Str} (hr : (scanFraction s).2 = c :: t) (hc : c ≠ '.') (q : Str) :
    scanFraction (s ++ q) = ((scanFraction s).1, (scanFraction s).2 ++ q) := by
  cases s with
  | nil => cases hr
  | cons a s =>
    by_cases ha : a = '.'
    · subst ha
      rw [scanFraction_point] at hr ⊢
      rw [List.cons_append, scanFraction_point]
      by_cases hne : s.takeWhile Char.isDigit = []
      · rw [if_pos hne] at hr
        exact absurd (List.cons.inj hr).1.symm hc
      · rw [if_neg hne] at hr ⊢
        have hdrop : s.dropWhile Char.isDigit ≠ [] := by
          rw [show s.dropWhile Char.isDigit = c :: t from hr]
          exact List.cons_ne_nil c t
        obtain ⟨htake, hdrop⟩ := takeWhile_append_of_rest hdrop q
        rw [htake, hdrop, if_neg hne]
    · rw [List.cons_append, scanFraction_of_head ha, scanFraction_of_head ha]
      rfl

theorem scanSign_append (h : s ≠ []) (q : Str) : scanSign (s ++ q) = ((scanSign s).1, (scanSign s).2 ++ q) := by
  cases s with
  | nil => exact absurd rfl h
  | cons c s =>
    rw [List.cons_append]
    unfold scanSign
    split
    · next heq =>
      obtain ⟨rfl, rfl⟩ := List.cons.inj heq
      rfl
    · next heq =>
      obtain ⟨rfl, rfl⟩ := List.cons.inj heq
      rfl
    · next h₁ h₂ =>
      split
      · next heq =>
        obtain ⟨rfl, rfl⟩ := List.cons.inj heq
        exact absurd rfl (h₁ _)
      · next heq =>
        obtain ⟨rfl, rfl⟩ := List.cons.inj heq
        exact absurd rfl (h₂ _)
      · rfl

theorem scanExponent_of_head {c : Char} (h : ¬(c = 'e' ∨ c = 'E')) (t : Str) :
    scanExponent (c :: t) = ([], c :: t) := by
  rw [scanExponent_cons, if_neg fun hand => h hand.1]

theorem scanExponent_append (hr : Stops (scanExponent s).2) (q : Str) :
    scanExponent (s ++ q) = ((scanExponent s).1, (scanExponent s).2 ++ q) := by
  cases s with
  | nil => exact absurd rfl hr.ne_nil
  | cons c s =>
    by_cases hc : c = 'e' ∨ c = 'E'
    · rw [scanExponent_cons] at hr ⊢
      rw [List.cons_append, scanExponent_cons]
      split at hr
      · next hand =>
        have hs : s ≠ [] := by
          rintro rfl
          exact hand.2 rfl
        obtain ⟨htake, hdrop⟩ := takeWhile_append_of_rest hr.ne_nil q
        rw [scanSign_append hs]
        dsimp only
        rw [htake, hdrop, if_pos hand, if_pos hand]
      · -- the letter is what follows the number
        obtain ⟨c', t, heq, hnum⟩ := hr
        obtain ⟨rfl, -⟩ := List.cons.inj heq
        obtain rfl | rfl := hc <;> exact absurd hnum (by decide)
    · rw [List.cons_append, scanExponent_of_head hc, scanExponent_of_head hc]
      rfl

/-- What is left of a fraction, where the exponent stops, is no point. -/
theorem head_of_scanExponent (hr : Stops (scanExponent s).2) : ∃ c t, s = c :: t ∧ c ≠ '.' := by
  cases s with
  | nil => exact absurd rfl hr.ne_nil
  | cons c s =>
    refine ⟨c, s, rfl, ?_⟩
    rintro rfl
    rw [scanExponent_of_head (by decide)] at hr
    obtain ⟨c', t, heq, hnum⟩ := hr
    obtain ⟨rfl, -⟩ := List.cons.inj heq
    exact absurd hnum (by decide)

/-- What follows a number that stops does not change how it is read. -/
theorem scanNumber_append (h : scanNumber s = some (v, r)) (hr : Stops r) (q : Str) :
    scanNumber (s ++ q) = some (v, r ++ q) := by
  unfold scanNumber at h ⊢
  dsimp only at h ⊢
  split at h
  · cases h
  · next ds r₁ hds =>
    have hrest : r = (scanExponent (scanFraction r₁).2).2 := by
      split at h <;> exact (Prod.mk.inj (Option.some.inj h)).2.symm
    rw [hrest] at hr
    obtain ⟨c, t, hfrac, hdot⟩ := head_of_scanExponent hr
    have hne : r₁ ≠ [] := by
      rintro rfl
      cases hfrac
    have hs : s ≠ [] := by
      rintro rfl
      cases hds
    have hhead : (s ++ q).head? = s.head? := List.head?_append_of_ne_nil s hs
    have htail : (if decide (s.head? = some '-') = true then (s ++ q).tail else s ++ q) =
        (if decide (s.head? = some '-') = true then s.tail else s) ++ q := by
      split
      · exact List.tail_append_of_ne_nil hs
      · rfl
    rw [hhead, htail, scanDigits_append hds hne]
    dsimp only
    rw [scanFraction_append hfrac hdot]
    dsimp only
    rw [scanExponent_append hr]
    dsimp only
    split at h
    · next hint =>
      rw [if_pos hint]
      obtain ⟨rfl, rfl⟩ := Prod.mk.inj (Option.some.inj h)
      rfl
    · next hint =>
      rw [if_neg hint]
      obtain ⟨rfl, rfl⟩ := Prod.mk.inj (Option.some.inj h)
      rfl

end Numbers

/-! ## Atoms -/

section Atoms

variable {s r q : Str} {v v' : Json} {c : Char}

theorem scanDigits_head {x : Str × Str} (h : scanDigits s = some x) : ∃ c t, s = c :: t ∧ c.isDigit = true := by
  cases s with
  | nil => cases h
  | cons c t =>
    refine ⟨c, t, rfl, ?_⟩
    unfold scanDigits at h
    split at h
    · next heq =>
      obtain ⟨rfl, -⟩ := List.cons.inj heq
      rfl
    · by_contra hc
      rw [if_pos (by simp [hc])] at h
      cases h

/-- A number starts with a digit, or with a sign and a digit. -/
theorem scanNumber_head {x : Json × Str} (h : scanNumber s = some x) :
    ∃ c t, c.isDigit = true ∧ (s = c :: t ∨ s = '-' :: c :: t) := by
  unfold scanNumber at h
  dsimp only at h
  split at h
  · cases h
  · next ds r hds =>
    obtain ⟨c, t, heq, hc⟩ := scanDigits_head hds
    by_cases hneg : s.head? = some '-'
    · rw [if_pos (decide_eq_true hneg)] at heq
      refine ⟨c, t, hc, .inr ?_⟩
      rw [← heq]
      exact (List.cons_head?_tail hneg).symm
    · rw [if_neg (by simpa using hneg)] at heq
      exact ⟨c, t, hc, .inl heq⟩

theorem scanAtom_of_digit (hc : c.isDigit = true) (t : Str) : scanAtom (c :: t) = scanNumber (c :: t) := by
  unfold scanAtom
  split
  case h_7 => rfl
  all_goals
    next heq =>
    obtain ⟨rfl, -⟩ := List.cons.inj heq
    exact absurd hc (by decide)

theorem scanAtom_of_sign (hc : c.isDigit = true) (t : Str) :
    scanAtom ('-' :: c :: t) = scanNumber ('-' :: c :: t) := by
  unfold scanAtom
  split
  case h_7 => rfl
  case h_6 heq =>
    obtain ⟨-, heq⟩ := List.cons.inj heq
    obtain ⟨rfl, -⟩ := List.cons.inj heq
    exact absurd hc (by decide)
  all_goals
    next heq =>
    exact absurd (List.cons.inj heq).1 (by decide)

theorem scanAtom_of_number {x : Json × Str} (h : scanNumber s = some x) : scanAtom s = some x := by
  obtain ⟨c, t, hc, rfl | rfl⟩ := scanNumber_head h
  · rw [scanAtom_of_digit hc, h]
  · rw [scanAtom_of_sign hc, h]

theorem scanWord_append {w : Str} (h : scanWord w v s = some (v', r)) (q : Str) :
    scanWord w v (s ++ q) = some (v', r ++ q) := by
  unfold scanWord at h ⊢
  rw [Option.map_eq_some_iff] at h
  obtain ⟨r', hr', heq⟩ := h
  obtain ⟨rfl, rfl⟩ := Prod.mk.inj heq
  rw [Str.cutPrefix_eq_some] at hr'
  rw [hr', List.append_assoc, Str.cutPrefix_append]
  rfl

/-- What follows an atom that stops does not change how it is read. -/
theorem scanAtom_append (h : scanAtom s = some (v, r)) (hr : Stops r) (q : Str) :
    scanAtom (s ++ q) = some (v, r ++ q) := by
  unfold scanAtom at h
  split at h
  case h_7 => exact scanAtom_of_number (scanNumber_append h hr q)
  all_goals exact scanWord_append h q

/-- What follows a number is of no number. -/
def Ends (r : Str) : Prop := ∀ c ∈ r.head?, isNumeric c = false

theorem Ends.isDigit (hr : Ends r) : ∀ c ∈ r.head?, c.isDigit = false := by
  intro c hc
  have := hr c hc
  simp only [isNumeric, Bool.or_eq_false_iff] at this
  exact this.1.1.1.1.1

theorem digits_append {ds : Str} (hds : ∀ c ∈ ds, c.isDigit = true) (hr : ∀ c ∈ r.head?, c.isDigit = false) :
    (ds ++ r).takeWhile Char.isDigit = ds ∧ (ds ++ r).dropWhile Char.isDigit = r := by
  have htake : r.takeWhile Char.isDigit = [] ∧ r.dropWhile Char.isDigit = r := by
    cases r with
    | nil => exact ⟨rfl, rfl⟩
    | cons c t => simp [hr c rfl]
  rw [List.takeWhile_append_of_pos hds, List.dropWhile_append_of_pos hds, htake.1, htake.2, List.append_nil]
  exact ⟨rfl, rfl⟩

theorem digitChar_ne_zero : ∀ d < 10, d ≠ 0 → Nat.digitChar d ≠ '0' := by decide

/-- The digits of a number that is not zero do not start with one. -/
theorem head?_toDigits (n : Nat) (hn : n ≠ 0) : (Nat.toDigits 10 n).head? ≠ some '0' := by
  induction n using Nat.strongRecOn with
  | ind n ih =>
    by_cases hlt : n < 10
    · rw [Nat.toDigits_of_lt_base hlt]
      simpa using digitChar_ne_zero n hlt hn
    · rw [Nat.toDigits_of_base_le (by decide) (not_lt.1 hlt), List.head?_append_of_ne_nil _ Nat.toDigits_ne_nil]
      exact ih (n / 10) (Nat.div_lt_self (Nat.pos_of_ne_zero hn) (by decide)) (by omega)

theorem scanDigits_toDigits (n : Nat) (hr : ∀ c ∈ r.head?, c.isDigit = false) :
    scanDigits (Nat.toDigits 10 n ++ r) = some (Nat.toDigits 10 n, r) := by
  by_cases hn : n = 0
  · subst hn
    rfl
  · have hds (c : Char) (hc : c ∈ Nat.toDigits 10 n) : c.isDigit = true :=
      Nat.isDigit_of_mem_toDigits (by decide) (by decide) hc
    obtain ⟨htake, hdrop⟩ := digits_append hds hr
    unfold scanDigits
    split
    · next t ht =>
      refine absurd ?_ (head?_toDigits n hn)
      rw [← List.head?_append_of_ne_nil _ Nat.toDigits_ne_nil, ht]
      rfl
    · rw [htake, hdrop, if_neg Nat.toDigits_ne_nil]

theorem scanFraction_of_ends (hr : Ends r) : scanFraction r = ([], r) := by
  cases r with
  | nil => rfl
  | cons c t =>
    refine scanFraction_of_head ?_ t
    rintro rfl
    exact absurd (hr '.' rfl) (by decide)

theorem scanExponent_of_ends (hr : Ends r) : scanExponent r = ([], r) := by
  cases r with
  | nil => rfl
  | cons c t =>
    refine scanExponent_of_head ?_ t
    rintro (rfl | rfl) <;> exact absurd (hr _ rfl) (by decide)

/-- An integer is read back from its text. -/
theorem scanNumber_formatInt (n : Int) (hr : Ends r) : scanNumber (Str.formatInt n ++ r) = some (int n, r) := by
  unfold scanNumber Str.formatInt Str.formatUint
  by_cases hn : n < 0
  · have hhead : ('-' :: Nat.toDigits 10 n.natAbs ++ r).head? = some '-' := rfl
    rw [if_pos hn]
    dsimp only
    rw [decide_eq_true hhead, if_pos rfl, List.cons_append, List.tail_cons, scanDigits_toDigits n.natAbs hr.isDigit]
    dsimp only
    rw [scanFraction_of_ends hr]
    dsimp only
    rw [scanExponent_of_ends hr, if_pos ⟨rfl, rfl⟩, if_pos rfl, Nat.ofDigitChars_ten_toDigits]
    have : -(n.natAbs : Int) = n := by omega
    rw [this]
  · have hhead : (Nat.toDigits 10 n.natAbs ++ r).head? ≠ some '-' := by
      rw [List.head?_append_of_ne_nil _ Nat.toDigits_ne_nil]
      intro heq
      have hd := Nat.isDigit_of_mem_toDigits (b := 10) (by decide) (by decide) (List.mem_of_head? heq)
      exact absurd hd (by decide)
    rw [if_neg hn]
    dsimp only
    rw [decide_eq_false hhead, if_neg Bool.false_ne_true, scanDigits_toDigits n.natAbs hr.isDigit]
    dsimp only
    rw [scanFraction_of_ends hr]
    dsimp only
    rw [scanExponent_of_ends hr, if_pos ⟨rfl, rfl⟩, if_neg Bool.false_ne_true, Nat.ofDigitChars_ten_toDigits]
    have : (n.natAbs : Int) = n := by omega
    rw [this]

/-! ### Floats -/

/-- Digits, and at least one. -/
def IsDigits (ds : Str) : Prop := ds ≠ [] ∧ ∀ c ∈ ds, c.isDigit = true

/-- The fraction of a float, or nothing. -/
def IsFraction (f : Str) : Prop := f = [] ∨ ∃ ds, IsDigits ds ∧ f = '.' :: ds

/-- The exponent of a float, or nothing. -/
def IsExponent (e : Str) : Prop :=
  e = [] ∨ ∃ sign ds, (sign = '+' ∨ sign = '-') ∧ IsDigits ds ∧ e = 'e' :: sign :: ds

/-- The text of a float. That of a finite one has a fraction or an exponent. -/
inductive IsFloat : Str → Prop
  | nan : IsFloat ['N', 'a', 'N']
  | infinity : IsFloat ('I' :: infinityTail)
  | negInfinity : IsFloat ('-' :: 'I' :: infinityTail)
  | finite (neg : Bool) (n : Nat) (f e : Str) (hf : IsFraction f) (he : IsExponent e) (hne : ¬(f = [] ∧ e = [])) :
      IsFloat ((if neg then ['-'] else []) ++ Nat.toDigits 10 n ++ f ++ e)

variable {f e : Str}

theorem IsExponent.scan (he : IsExponent e) (hr : Ends r) : scanExponent (e ++ r) = (e, r) := by
  obtain rfl | ⟨sign, ds, hsign, ⟨hne, hds⟩, rfl⟩ := he
  · exact scanExponent_of_ends hr
  · obtain ⟨htake, hdrop⟩ := digits_append hds hr.isDigit
    have hs : scanSign (sign :: (ds ++ r)) = ([sign], ds ++ r) := by
      obtain rfl | rfl := hsign <;> rfl
    rw [List.cons_append, List.cons_append, scanExponent_cons, hs]
    dsimp only
    rw [htake, hdrop, if_pos ⟨.inl rfl, hne⟩]
    rfl

/-- What follows the fraction of a float is no digit and no point. -/
theorem IsExponent.head (he : IsExponent e) (hr : Ends r) :
    ∀ c ∈ (e ++ r).head?, c.isDigit = false ∧ c ≠ '.' := by
  intro c hc
  obtain rfl | ⟨sign, ds, -, -, rfl⟩ := he
  · refine ⟨hr.isDigit c hc, ?_⟩
    rintro rfl
    exact absurd (hr '.' hc) (by decide)
  · obtain rfl := Option.some.inj hc
    decide

theorem IsFraction.scan (hf : IsFraction f) (hr : ∀ c ∈ r.head?, c.isDigit = false ∧ c ≠ '.') :
    scanFraction (f ++ r) = (f, r) := by
  obtain rfl | ⟨ds, ⟨hne, hds⟩, rfl⟩ := hf
  · cases r with
    | nil => rfl
    | cons c t => exact scanFraction_of_head (hr c rfl).2 t
  · obtain ⟨htake, hdrop⟩ := digits_append hds fun c hc => (hr c hc).1
    rw [List.cons_append, scanFraction_point, htake, hdrop, if_neg hne]

theorem IsFraction.head (hf : IsFraction f) (hr : ∀ c ∈ r.head?, c.isDigit = false ∧ c ≠ '.') :
    ∀ c ∈ (f ++ r).head?, c.isDigit = false := by
  intro c hc
  obtain rfl | ⟨ds, -, rfl⟩ := hf
  · exact (hr c hc).1
  · obtain rfl := Option.some.inj hc
    rfl

/-- The number of a float is read back from its text. -/
theorem scanNumber_finite (neg : Bool) (n : Nat) (hf : IsFraction f) (he : IsExponent e) (hne : ¬(f = [] ∧ e = []))
    (hr : Ends r) : scanNumber ((if neg then ['-'] else []) ++ Nat.toDigits 10 n ++ f ++ e ++ r) =
      some (float ((if neg then ['-'] else []) ++ Nat.toDigits 10 n ++ f ++ e), r) := by
  have hdigits := scanDigits_toDigits n (hf.head (he.head hr))
  have hhead : (Nat.toDigits 10 n ++ (f ++ (e ++ r))).head? ≠ some '-' := by
    rw [List.head?_append_of_ne_nil _ Nat.toDigits_ne_nil]
    intro heq
    have hd := Nat.isDigit_of_mem_toDigits (b := 10) (by decide) (by decide) (List.mem_of_head? heq)
    exact absurd hd (by decide)
  have hneg : decide (((if neg then ['-'] else []) ++ (Nat.toDigits 10 n ++ (f ++ (e ++ r)))).head? = some '-') =
      neg := by
    cases neg with
    | true => rfl
    | false => exact decide_eq_false hhead
  have htail : (if neg = true then ((if neg then ['-'] else []) ++ (Nat.toDigits 10 n ++ (f ++ (e ++ r)))).tail
      else (if neg then ['-'] else []) ++ (Nat.toDigits 10 n ++ (f ++ (e ++ r)))) =
      Nat.toDigits 10 n ++ (f ++ (e ++ r)) := by
    cases neg <;> rfl
  unfold scanNumber
  simp only [List.append_assoc]
  rw [hneg, htail, hdigits]
  dsimp only
  rw [hf.scan (he.head hr)]
  dsimp only
  rw [he.scan hr, if_neg hne]

/-- A float is read back from its text. -/
theorem scanAtom_float {t : Str} (h : IsFloat t) (hr : Ends r) : scanAtom (t ++ r) = some (float t, r) := by
  cases h with
  | nan => exact congrArg (Option.map _) (Str.cutPrefix_append ['a', 'N'] r)
  | infinity => exact congrArg (Option.map _) (Str.cutPrefix_append infinityTail r)
  | negInfinity => exact congrArg (Option.map _) (Str.cutPrefix_append infinityTail r)
  | finite neg n f e hf he hne => exact scanAtom_of_number (scanNumber_finite neg n hf he hne hr)

/-- A float starts with a digit, a sign or the letter of a word. -/
theorem IsFloat.head {t : Str} (h : IsFloat t) :
    ∃ c u, t = c :: u ∧ (c.isDigit = true ∨ c = '-' ∨ c = 'N' ∨ c = 'I') := by
  cases h with
  | nan => exact ⟨_, _, rfl, by decide⟩
  | infinity => exact ⟨_, _, rfl, by decide⟩
  | negInfinity => exact ⟨_, _, rfl, by decide⟩
  | finite neg n f e hf he hne =>
    cases neg with
    | true => exact ⟨'-', _, rfl, .inr (.inl rfl)⟩
    | false =>
      obtain ⟨c, u, heq⟩ := List.exists_cons_of_ne_nil (Nat.toDigits_ne_nil (n := n) (b := 10))
      refine ⟨c, u ++ f ++ e, ?_, .inl ?_⟩
      · rw [heq]
        rfl
      · exact Nat.isDigit_of_mem_toDigits (b := 10) (n := n) (by decide) (by decide) (heq ▸ List.mem_cons_self)

end Atoms

end Dendra.Json
