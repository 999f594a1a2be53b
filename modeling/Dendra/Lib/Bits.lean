import Mathlib.Data.Nat.Bitwise

/-!
# Numbers as lists of bits

The lowest bits of a number in order, the first one the most significant, and the one list that the
numbers of a list make when each of them has the same width.

* `bits_add`, `bits_or`: splitting a number and putting two side by side.
* `flatMap_bits_injective`: the one list says the numbers.
-/

namespace Dendra.Bits

/-- The `n` lowest bits of a number. -/
def bits : Nat → Nat → List Bool
  | 0, _ => []
  | n + 1, v => v.testBit n :: bits n v

@[simp] theorem bits_zero (v : Nat) : bits 0 v = [] := rfl

@[simp] theorem length_bits (n v : Nat) : (bits n v).length = n := by
  induction n with
  | zero => rfl
  | succ n ih => simp [bits, ih]

theorem bits_congr {n v w : Nat} (h : ∀ i < n, v.testBit i = w.testBit i) : bits n v = bits n w := by
  induction n with
  | zero => rfl
  | succ n ih => rw [bits, bits, h n (by omega), ih fun i hi => h i (by omega)]

theorem testBit_of_bits {n v w : Nat} (h : bits n v = bits n w) : ∀ i < n, v.testBit i = w.testBit i := by
  induction n with
  | zero => simp
  | succ n ih =>
    obtain ⟨htop, hrest⟩ := List.cons_eq_cons.1 h
    intro i hi
    rcases Nat.lt_succ_iff_lt_or_eq.1 hi with hi | rfl
    exacts [ih hrest i hi, htop]

theorem bits_injective {n v w : Nat} (hv : v < 2 ^ n) (hw : w < 2 ^ n) (h : bits n v = bits n w) : v = w := by
  refine Nat.eq_of_testBit_eq fun i => ?_
  rcases Nat.lt_or_ge i n with hi | hi
  · exact testBit_of_bits h i hi
  · have hle := Nat.pow_le_pow_right (show 0 < 2 by decide) hi
    rw [Nat.testBit_lt_two_pow (hv.trans_le hle), Nat.testBit_lt_two_pow (hw.trans_le hle)]

theorem bits_mod {n m : Nat} (h : n ≤ m) (v : Nat) : bits n (v % 2 ^ m) = bits n v :=
  bits_congr fun i hi => by rw [Nat.testBit_mod_two_pow, decide_eq_true (by omega), Bool.true_and]

theorem bits_of_zero (n : Nat) : bits n 0 = List.replicate n false := by
  induction n with
  | zero => rfl
  | succ n ih => rw [bits, ih, Nat.zero_testBit, List.replicate_succ]

theorem bits_add (a b v : Nat) : bits (a + b) v = bits a (v >>> b) ++ bits b v := by
  induction a with
  | zero => simp
  | succ a ih =>
    rw [Nat.succ_add, bits, ih, bits, Nat.testBit_shiftRight, List.cons_append, Nat.add_comm b a]

/-- Two numbers side by side. -/
theorem bits_or {b v d : Nat} (a : Nat) (hd : d < 2 ^ b) :
    bits (a + b) (v <<< b ||| d) = bits a v ++ bits b d := by
  have hhigh : (v <<< b ||| d) >>> b = v := by
    rw [← Nat.shiftLeft_add_eq_or_of_lt hd, Nat.shiftLeft_eq, Nat.shiftRight_eq_div_pow, Nat.mul_comm,
      Nat.mul_add_div (Nat.two_pow_pos b), Nat.div_eq_of_lt hd, Nat.add_zero]
  have hlow : bits b (v <<< b ||| d) = bits b d :=
    bits_congr fun i hi => by
      rw [Nat.testBit_or, Nat.testBit_shiftLeft, decide_eq_false (by omega), Bool.false_and, Bool.false_or]
  rw [bits_add, hhigh, hlow]

theorem bits_shiftLeft (a b v : Nat) : bits (a + b) (v <<< b) = bits a v ++ List.replicate b false := by
  have h := bits_or (b := b) (v := v) (d := 0) a (Nat.two_pow_pos b)
  rwa [Nat.or_zero, bits_of_zero] at h

theorem length_flatMap_bits (n : Nat) (l : List Nat) : (l.flatMap (bits n)).length = n * l.length := by
  induction l with
  | nil => rfl
  | cons d l ih =>
    rw [List.flatMap_cons, List.length_append, length_bits, ih, List.length_cons, Nat.mul_succ, Nat.add_comm]

/-- Of two lists that start with the same bits, the numbers are the same. -/
theorem flatMap_bits_injective {n : Nat} {l m : List Nat} {r s : List Bool} (hlen : l.length = m.length)
    (hl : ∀ d ∈ l, d < 2 ^ n) (hm : ∀ d ∈ m, d < 2 ^ n)
    (h : l.flatMap (bits n) ++ r = m.flatMap (bits n) ++ s) : l = m ∧ r = s := by
  induction l generalizing m with
  | nil =>
    obtain rfl : m = [] := List.length_eq_zero_iff.1 hlen.symm
    exact ⟨rfl, h⟩
  | cons d l ih =>
    obtain ⟨e, m, rfl⟩ := List.exists_cons_of_length_eq_add_one hlen.symm
    rw [List.flatMap_cons, List.flatMap_cons, List.append_assoc, List.append_assoc] at h
    obtain ⟨hd, hrest⟩ := List.append_inj h (by simp)
    obtain ⟨rfl, hrs⟩ := ih (Nat.succ.inj hlen) (fun d hd => hl d (by simp [hd]))
      (fun d hd => hm d (by simp [hd])) hrest
    exact ⟨by rw [bits_injective (hl d (by simp)) (hm e (by simp)) hd], hrs⟩

end Dendra.Bits
