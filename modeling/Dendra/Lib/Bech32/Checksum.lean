import Mathlib.Data.Nat.Bitwise
import Dendra.Lib.Bech32

/-!
# The checksum of Bech32

`polymod` reads its values as the coefficients of a polynomial over GF(32), and its state is the rest of
a division by a fixed polynomial of degree six. What is used of this:

* `foldl_polymodStep_xor`: the checksum is linear.
* `polymodStep_zero`: a state other than zero stays other than zero.
* `polymod_append_iff`: the digits that make a list valid are those of `checksum`, and no others.
* `polymod_substitute`: two lists that differ at one place have different checksums.
-/

namespace Dendra.Bech32

/-! ## Numbers as digits -/

theorem ofDigits_concat (w : Nat) (l : List Nat) {d : Nat} (hd : d < 2 ^ w) :
    ofDigits w (l ++ [d]) = ofDigits w l * 2 ^ w + d := by
  have h : ofDigits w (l ++ [d]) = ofDigits w l <<< w ||| d := by simp [ofDigits]
  rw [h, ← Nat.shiftLeft_add_eq_or_of_lt hd, Nat.shiftLeft_eq]

theorem length_digits (w n x : Nat) : (digits w n x).length = n := by simp [digits]

theorem digits_lt {w n x d : Nat} (h : d ∈ digits w n x) : d < 2 ^ w := by
  obtain ⟨i, -, rfl⟩ := List.mem_map.1 h
  exact Nat.mod_lt _ (by positivity)

theorem digits_succ (w n x : Nat) : digits w (n + 1) x = digits w n (x / 2 ^ w) ++ [x % 2 ^ w] := by
  rw [digits, List.range_succ, List.map_append, digits]
  congr 1
  · refine List.map_congr_left fun i hi => ?_
    have hn := List.mem_range.1 hi
    rw [← Nat.shiftRight_eq_div_pow x w, ← Nat.shiftRight_add]
    congr 2
    have : n + 1 - 1 - i = (n - 1 - i) + 1 := by omega
    rw [this]
    ring
  · simp

theorem ofDigits_digits {w n x : Nat} (h : x < 2 ^ (w * n)) : ofDigits w (digits w n x) = x := by
  induction n generalizing x with
  | zero =>
    have : x = 0 := by simpa using h
    simp [this, digits, ofDigits]
  | succ n ih =>
    have hx : x / 2 ^ w < 2 ^ (w * n) := by
      rw [Nat.div_lt_iff_lt_mul (by positivity), ← pow_add]
      rwa [Nat.mul_succ] at h
    rw [digits_succ, ofDigits_concat w _ (Nat.mod_lt _ (by positivity)), ih hx]
    exact Nat.div_add_mod' x _

theorem digits_ofDigits {w : Nat} {l : List Nat} (h : ∀ d ∈ l, d < 2 ^ w) :
    digits w l.length (ofDigits w l) = l := by
  induction l using List.reverseRecOn with
  | nil => rfl
  | append_singleton l d ih =>
    have hd : d < 2 ^ w := h d (by simp)
    have hmod : (ofDigits w l * 2 ^ w + d) % 2 ^ w = d := by
      rw [Nat.mul_add_mod_self_right, Nat.mod_eq_of_lt hd]
    have hdiv : (ofDigits w l * 2 ^ w + d) / 2 ^ w = ofDigits w l := by
      rw [Nat.mul_comm, Nat.mul_add_div (by positivity), Nat.div_eq_of_lt hd, Nat.add_zero]
    rw [List.length_append, List.length_singleton, ofDigits_concat w l hd, digits_succ, hmod, hdiv,
      ih fun d hd => h d (by simp [hd])]

/-! ## One step -/

/-- The combination of the generators that the bits of a number choose. -/
def mix (b : Nat) : Nat :=
  (if b.testBit 0 then 0x3b6a57b2 else 0) ^^^ (if b.testBit 1 then 0x26508e6d else 0) ^^^
    (if b.testBit 2 then 0x1ea119fa else 0) ^^^ (if b.testBit 3 then 0x3d4233dd else 0) ^^^
    (if b.testBit 4 then 0x2a1462b3 else 0)

theorem polymodStep_eq (chk v : Nat) :
    polymodStep chk v = (chk % 2 ^ 25) <<< 5 ^^^ v ^^^ mix (chk >>> 25) := by
  have key (p : Prop) [Decidable p] (c g : Nat) : (if p then c ^^^ g else c) = c ^^^ if p then g else 0 := by
    split <;> simp
  simp only [polymodStep, List.zipIdx_cons, List.zipIdx_nil, List.foldl_cons, List.foldl_nil, key, mix,
    Nat.xor_assoc]

private theorem ite_xor (p q : Bool) (g : Nat) :
    (if p ^^ q then g else 0) = (if p then g else 0) ^^^ (if q then g else 0) := by
  cases p <;> cases q <;> simp

theorem mix_xor (a b : Nat) : mix (a ^^^ b) = mix a ^^^ mix b := by
  simp only [mix, Nat.testBit_xor, ite_xor]
  ac_rfl

theorem polymodStep_xor (a b v w : Nat) :
    polymodStep (a ^^^ b) (v ^^^ w) = polymodStep a v ^^^ polymodStep b w := by
  simp only [polymodStep_eq, Nat.xor_mod_two_pow, Nat.shiftLeft_xor_distrib, Nat.shiftRight_xor_distrib,
    mix_xor]
  ac_rfl

theorem mix_lt (b : Nat) : mix b < 2 ^ 30 := by
  unfold mix
  refine Nat.xor_lt_two_pow (Nat.xor_lt_two_pow (Nat.xor_lt_two_pow (Nat.xor_lt_two_pow ?_ ?_) ?_) ?_) ?_ <;>
    split <;> decide

theorem polymodStep_lt (chk : Nat) {v : Nat} (hv : v < 32) : polymodStep chk v < 2 ^ 30 := by
  rw [polymodStep_eq]
  refine Nat.xor_lt_two_pow (Nat.xor_lt_two_pow ?_ (by omega)) (mix_lt _)
  have := Nat.mod_lt chk (show 2 ^ 25 > 0 by decide)
  rw [Nat.shiftLeft_eq]
  omega

/-- The five lowest bits of a combination say which one it is. -/
theorem mix_mod {b : Nat} (hb : b < 32) (h : mix b % 32 = 0) : b = 0 := by
  have key : ∀ b < 32, mix b % 32 = 0 → b = 0 := by decide
  exact key b hb h

theorem polymodStep_zero {chk : Nat} (hlt : chk < 2 ^ 30) (h : polymodStep chk 0 = 0) : chk = 0 := by
  rw [polymodStep_eq, Nat.xor_zero] at h
  have hb : chk >>> 25 < 32 := by
    rw [Nat.shiftRight_eq_div_pow]
    omega
  have hlow : mix (chk >>> 25) % 32 = 0 := by
    have := congrArg (· % 2 ^ 5) h
    simp only [Nat.xor_mod_two_pow, Nat.shiftLeft_eq, Nat.mul_mod_left, Nat.zero_xor] at this
    simpa using this
  have htop := mix_mod hb hlow
  rw [htop] at h
  have hrest : (chk % 2 ^ 25) <<< 5 = 0 := by simpa [mix] using h
  rw [Nat.shiftLeft_eq] at hrest
  rw [Nat.shiftRight_eq_div_pow] at htop
  omega

/-! ## A list of values -/

theorem foldl_polymodStep_xor {l m : List Nat} (a b : Nat) (h : l.length = m.length) :
    (List.zipWith (· ^^^ ·) l m).foldl polymodStep (a ^^^ b) =
      l.foldl polymodStep a ^^^ m.foldl polymodStep b := by
  induction l generalizing m a b with
  | nil =>
    obtain rfl : m = [] := List.length_eq_zero_iff.1 h.symm
    rfl
  | cons v l ih =>
    obtain ⟨w, m, rfl⟩ := List.exists_cons_of_length_eq_add_one h.symm
    rw [List.zipWith_cons_cons, List.foldl_cons, polymodStep_xor, ih _ _ (Nat.succ.inj h)]
    rfl

theorem polymod_lt {l : List Nat} (h : ∀ v ∈ l, v < 32) : polymod l < 2 ^ 30 := by
  induction l using List.reverseRecOn with
  | nil => decide
  | append_singleton l v _ =>
    rw [polymod, List.foldl_append]
    exact polymodStep_lt _ (h v (by simp))

theorem foldl_polymodStep_zeros {chk : Nat} (n : Nat) (hlt : chk < 2 ^ 30)
    (h : (List.replicate n 0).foldl polymodStep chk = 0) : chk = 0 := by
  induction n generalizing chk with
  | zero => exact h
  | succ n ih => exact polymodStep_zero hlt (ih (polymodStep_lt _ (by decide)) h)

/-- Digits put side by side do not meet. -/
private theorem shiftLeft_xor {x v w : Nat} (hv : v < 2 ^ w) : x <<< w ^^^ v = x * 2 ^ w + v := by
  have hdiv : (x <<< w ^^^ v) / 2 ^ w = x := by
    rw [Nat.xor_div_two_pow, Nat.shiftLeft_eq, Nat.mul_div_left _ (by positivity), Nat.div_eq_of_lt hv,
      Nat.xor_zero]
  have hmod : (x <<< w ^^^ v) % 2 ^ w = v := by
    rw [Nat.xor_mod_two_pow, Nat.shiftLeft_eq, Nat.mul_mod_left, Nat.mod_eq_of_lt hv, Nat.zero_xor]
  rw [← Nat.div_add_mod' (x <<< w ^^^ v) (2 ^ w), hdiv, hmod]

/-- From an empty state, six values are only put side by side. -/
theorem foldl_polymodStep_of_short {l : List Nat} (hlen : l.length ≤ 6) (h : ∀ v ∈ l, v < 32) :
    l.foldl polymodStep 0 = ofDigits 5 l ∧ ofDigits 5 l < 2 ^ (5 * l.length) := by
  induction l using List.reverseRecOn with
  | nil => decide
  | append_singleton l v ih =>
    have hv : v < 2 ^ 5 := h v (by simp)
    rw [List.length_append, List.length_singleton] at hlen ⊢
    obtain ⟨heq, hlt⟩ := ih (by omega) fun v hv => h v (by simp [hv])
    have hpow : 2 ^ (5 * (l.length + 1)) = 2 ^ (5 * l.length) * 32 := by rw [Nat.mul_succ, pow_add]; rfl
    have h25 : ofDigits 5 l < 2 ^ 25 := hlt.trans_le (Nat.pow_le_pow_right (by decide) (by omega))
    rw [ofDigits_concat 5 l hv]
    refine ⟨?_, by omega⟩
    rw [List.foldl_append, List.foldl_cons, List.foldl_nil, heq, polymodStep_eq, Nat.mod_eq_of_lt h25,
      Nat.shiftRight_eq_div_pow, Nat.div_eq_of_lt h25, show mix 0 = 0 by decide, Nat.xor_zero]
    exact shiftLeft_xor hv

/-- The six digits at the end choose the checksum. -/
theorem polymod_append {l c : List Nat} (hlen : c.length = 6) (h : ∀ d ∈ c, d < 32) :
    polymod (l ++ c) = polymod (l ++ List.replicate 6 0) ^^^ ofDigits 5 c := by
  have hzip : List.zipWith (· ^^^ ·) (List.replicate 6 0) c = c := by
    rw [← hlen]
    clear hlen h
    induction c with
    | nil => rfl
    | cons d c ih => rw [List.length_cons, List.replicate_succ, List.zipWith_cons_cons, ih, Nat.zero_xor]
  have hxor := foldl_polymodStep_xor (polymod l) 0 (l := List.replicate 6 0) (m := c) (by simp [hlen])
  rw [hzip, Nat.xor_zero, (foldl_polymodStep_of_short hlen.le h).1] at hxor
  simpa [polymod, List.foldl_append] using hxor

theorem lt_of_mem_expand {hrp : Str} (h : ∀ a ∈ hrp, a.toNat < 1024) {v : Nat} (hv : v ∈ expand hrp) :
    v < 32 := by
  simp only [expand, List.mem_append, List.mem_map, List.mem_cons] at hv
  rcases hv with ⟨a, ha, rfl⟩ | rfl | ⟨a, -, rfl⟩
  · have := h a ha
    rw [Nat.shiftRight_eq_div_pow]
    omega
  · decide
  · exact Nat.mod_lt _ (by decide)

/-- A list is valid with the digits of `checksum` at its end, and with no others. -/
theorem polymod_append_iff {hrp : Str} {data c : List Nat} (hhrp : ∀ a ∈ hrp, a.toNat < 1024)
    (hdata : ∀ d ∈ data, d < 32) (hlen : c.length = 6) (h : ∀ d ∈ c, d < 32) :
    polymod (expand hrp ++ data ++ c) = 1 ↔ c = checksum hrp data := by
  rw [polymod_append hlen h]
  have hx : polymod (expand hrp ++ data ++ List.replicate 6 0) < 2 ^ 30 := by
    refine polymod_lt fun v hv => ?_
    rcases List.mem_append.1 hv with hv | hv
    · rcases List.mem_append.1 hv with hv | hv
      exacts [lt_of_mem_expand hhrp hv, hdata v hv]
    · simp [(List.mem_replicate.1 hv).2]
  rw [checksum]
  generalize polymod (expand hrp ++ data ++ List.replicate 6 0) = x at hx ⊢
  constructor
  · intro heq
    have hc : ofDigits 5 c = x ^^^ 1 := by rw [← heq, ← Nat.xor_assoc, Nat.xor_self, Nat.zero_xor]
    rw [← hc, ← hlen, digits_ofDigits h]
  · rintro rfl
    rw [ofDigits_digits (Nat.xor_lt_two_pow hx (by decide)), ← Nat.xor_assoc, Nat.xor_self, Nat.zero_xor]

/-- Two lists that differ at one place have different checksums. -/
theorem polymod_substitute {l r : List Nat} {v w : Nat} (hv : v < 32) (hw : w < 32) (hne : v ≠ w) :
    polymod (l ++ v :: r) ≠ polymod (l ++ w :: r) := by
  intro heq
  have hxor : polymodStep (polymod l) v ^^^ polymodStep (polymod l) w = v ^^^ w := by
    rw [← polymodStep_xor, Nat.xor_self]
    simp [polymodStep_eq, mix]
  have hzip : List.zipWith (· ^^^ ·) r r = List.replicate r.length 0 := by
    clear heq
    induction r with
    | nil => rfl
    | cons d r ih => rw [List.zipWith_cons_cons, ih, Nat.xor_self, List.length_cons, List.replicate_succ]
  -- the difference of the two runs is a run over zeros
  have hrun : (List.replicate r.length 0).foldl polymodStep (v ^^^ w) = 0 := by
    rw [← hxor, ← hzip, foldl_polymodStep_xor _ _ rfl, Nat.xor_eq_zero_iff]
    simpa [polymod, List.foldl_append] using heq
  have hlt : v ^^^ w < 2 ^ 30 := (Nat.xor_lt_two_pow (n := 5) hv hw).trans (by decide)
  exact hne (Nat.xor_eq_zero_iff.1 (foldl_polymodStep_zeros _ hlt hrun))

end Dendra.Bech32
