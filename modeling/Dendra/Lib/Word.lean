import Mathlib

/-!
# 64-bit machine integers

The arithmetic of `uint64` and `int64`: products and sums wrap modulo `2 ^ 64`, conversions
reinterpret the bits.

* `toNat_mulDiv_le`: a share `x * bps / 10000` with `bps ≤ 10000` is at most `x`, although the
  product may wrap: a wrap only makes it smaller.
* `toNat_add_le`: so does a sum.
* `toNat_sub`: a difference that does not go below zero is exact.
-/

namespace Dendra

namespace Word

/-- `int64(x)` and `int(x)` of a `uint64`: the same bits, signed. -/
def toInt64 (x : UInt64) : Int := x.toBitVec.toInt

/-- `uint64(n)` of a signed integer: the same bits, unsigned. -/
def toUint64 (n : Int) : UInt64 := UInt64.ofNat (n % 2 ^ 64).toNat

/-- A sum of two `int64`. -/
def addInt64 (a b : Int) : Int := (a + b).bmod (2 ^ 64)

/-- The number of one bits (`bits.OnesCount64`). -/
def onesCount (x : UInt64) : Nat := (List.range 64).countP fun i => x.toBitVec.getLsbD i

/-- `x * bps / 10000`, the share of `bps` basis points. -/
def bpsOf (x bps : UInt64) : UInt64 := x * bps / 10000

variable {a b x bps : UInt64}

theorem toInt64_of_lt (h : x.toNat < 2 ^ 63) : toInt64 x = x.toNat :=
  BitVec.toInt_eq_toNat_of_lt (by
    rw [UInt64.toNat_toBitVec]
    omega)

theorem toNat_add_le (a b : UInt64) : (a + b).toNat ≤ a.toNat + b.toNat := by
  rw [UInt64.toNat_add]
  exact Nat.mod_le _ _

theorem toNat_sub (h : b ≤ a) : (a - b).toNat = a.toNat - b.toNat := UInt64.toNat_sub_of_le _ _ h

theorem toNat_le_of_le (h : a ≤ b) : a.toNat ≤ b.toNat := UInt64.le_iff_toNat_le.1 h

theorem toNat_bpsOf (x bps : UInt64) :
    (bpsOf x bps).toNat = x.toNat * bps.toNat % 2 ^ 64 / 10000 := by
  rw [bpsOf, UInt64.toNat_div, UInt64.toNat_mul]
  rfl

/-- A share is at most `2 ^ 64 / 10000`, wrapped or not. -/
theorem toNat_bpsOf_lt (x bps : UInt64) : (bpsOf x bps).toNat * 10000 < 2 ^ 64 := by
  rw [toNat_bpsOf]
  have := Nat.mod_lt (x.toNat * bps.toNat) (show 0 < 2 ^ 64 by decide)
  omega

/-- A share of at most 10000 basis points is at most the whole. -/
theorem toNat_bpsOf_le (h : bps.toNat ≤ 10000) : (bpsOf x bps).toNat ≤ x.toNat := by
  rw [toNat_bpsOf]
  have h1 := Nat.mod_le (x.toNat * bps.toNat) (2 ^ 64)
  have h2 := Nat.mul_le_mul_left x.toNat h
  omega

theorem bpsOf_le (h : bps.toNat ≤ 10000) : bpsOf x bps ≤ x :=
  UInt64.le_iff_toNat_le.2 (toNat_bpsOf_le h)

/-- Of a part that is itself a share, the product does not wrap. -/
theorem toNat_bpsOf_of_small (hx : x.toNat * 10000 < 2 ^ 64) (h : bps.toNat ≤ 10000) :
    (bpsOf x bps).toNat = x.toNat * bps.toNat / 10000 := by
  rw [toNat_bpsOf, Nat.mod_eq_of_lt]
  exact Nat.lt_of_le_of_lt (Nat.mul_le_mul_left _ h) hx

end Word

end Dendra
