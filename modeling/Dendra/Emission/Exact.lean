import Dendra.Emission.Backing

/-!
# When a release is exact

`Validate` compares the sum of the two splits with 10000 as a `uint64`, and the sum may wrap: a split close
to `2 ^ 64` passes beside a small one. A release of such parameters is not exact once it releases a coin.

* `epochRelease_exact_of_splits`: two splits whose sum does not wrap.
* `not_exact_of_splits`: two splits whose sum wraps.
* `epochRelease_exact`: when a release is exact.
-/

namespace Dendra.Emission

open Word

/-- A release is exact: its parts add up, the Reserve covers it and is left with the rest, the work part is
within the gate, and neither a product nor the sum of the parts wraps. -/
structure Release.Exact (r : Release) (reserve demand : UInt64) (p : Params) : Prop where
  parts : r.work + r.avail + r.security = r.released
  covered : r.released ≤ reserve
  rest : r.newReserve = reserve - r.released
  gate : r.work.toNat ≤ p.workGateBps.toNat * demand.toNat / 10000
  release : reserve.toNat * p.reserveReleaseBps.toNat < 2 ^ 64
  workPool : (mulBps reserve p.reserveReleaseBps).toNat * p.workSplitBps.toNat < 2 ^ 64
  availPool : (mulBps reserve p.reserveReleaseBps).toNat * p.availSplitBps.toNat < 2 ^ 64
  capWork : demand.toNat * p.workGateBps.toNat < 2 ^ 64
  sum : r.work.toNat + r.avail.toNat + r.security.toNat < 2 ^ 64

section Release

variable {reserve demand : UInt64} {p : Params}

/-- What the checks of `Validate` say of the numbers: the first is on the wrapped sum. -/
theorem Params.validate_eq_ok : p.validate = .ok () ↔
    (p.workSplitBps.toNat + p.availSplitBps.toNat) % 2 ^ 64 ≤ 10000 ∧
      p.reserveReleaseBps.toNat ≤ 10000 ∧ p.workGateBps.toNat ≤ 100000 ∧
      p.epochBlocks.toNat ≤ 2 ^ 32 := by
  have h32 : (2 ^ 32 : UInt64).toNat = 2 ^ 32 := rfl
  unfold Params.validate
  simp only [gt_iff_lt, UInt64.lt_iff_toNat_lt, UInt64.toNat_add, h32]
  split_ifs <;> simp_all

/-- Of numbers up to the supply, the released share and the gate are computed as written. -/
theorem toNat_release (hr : reserve.toNat ≤ maxSupply) (hp : p.reserveReleaseBps.toNat ≤ 10000) :
    reserve.toNat * p.reserveReleaseBps.toNat < 2 ^ 64 ∧
      (mulBps reserve p.reserveReleaseBps).toNat =
        reserve.toNat * p.reserveReleaseBps.toNat / 10000 := by
  have hle := Nat.mul_le_mul hr hp
  unfold maxSupply at hle
  have hlt : reserve.toNat * p.reserveReleaseBps.toNat < 2 ^ 64 := by omega
  exact ⟨hlt, by rw [mulBps, toNat_bpsOf, Nat.mod_eq_of_lt hlt]⟩

theorem toNat_gate (hd : demand.toNat ≤ maxSupply) (hp : p.workGateBps.toNat ≤ 100000) :
    demand.toNat * p.workGateBps.toNat < 2 ^ 64 ∧
      (mulBps demand p.workGateBps).toNat = demand.toNat * p.workGateBps.toNat / 10000 := by
  have hle := Nat.mul_le_mul hd hp
  unfold maxSupply at hle
  have hlt : demand.toNat * p.workGateBps.toNat < 2 ^ 64 := by omega
  exact ⟨hlt, by rw [mulBps, toNat_bpsOf, Nat.mod_eq_of_lt hlt]⟩

/-- The work part is the smaller of its pool and the gate. -/
theorem toNat_work (reserve demand : UInt64) (p : Params) : (epochRelease reserve demand p).work.toNat =
    min (mulBps (mulBps reserve p.reserveReleaseBps) p.workSplitBps).toNat
      (mulBps demand p.workGateBps).toNat := by
  unfold epochRelease
  dsimp only
  split
  · next h => exact (Nat.min_eq_right (UInt64.lt_iff_toNat_lt.1 h).le).symm
  · next h => exact (Nat.min_eq_left (UInt64.le_iff_toNat_le.1 (UInt64.not_lt.1 h))).symm

theorem toNat_security (reserve demand : UInt64) (p : Params) : (epochRelease reserve demand p).security.toNat =
    ((mulBps reserve p.reserveReleaseBps).toNat + (2 ^ 64 -
      (mulBps (mulBps reserve p.reserveReleaseBps) p.workSplitBps).toNat) + (2 ^ 64 -
      (mulBps (mulBps reserve p.reserveReleaseBps) p.availSplitBps).toNat)) % 2 ^ 64 := by
  unfold epochRelease
  dsimp only
  rw [UInt64.toNat_sub, UInt64.toNat_sub]
  omega

theorem toNat_released (reserve demand : UInt64) (p : Params) : (epochRelease reserve demand p).released.toNat =
    ((epochRelease reserve demand p).work.toNat + (epochRelease reserve demand p).avail.toNat +
      (epochRelease reserve demand p).security.toNat) % 2 ^ 64 := by
  change ((epochRelease reserve demand p).work + (epochRelease reserve demand p).avail +
    (epochRelease reserve demand p).security).toNat = _
  rw [UInt64.toNat_add, UInt64.toNat_add]
  omega

/-- A release whose two pools are computed as written and stay within what is released is exact. -/
theorem exact_of_pools (hv : p.validate = .ok ()) (hr : reserve.toNat ≤ maxSupply)
    (hd : demand.toNat ≤ maxSupply)
    (hw : (mulBps reserve p.reserveReleaseBps).toNat * p.workSplitBps.toNat < 2 ^ 64)
    (ha : (mulBps reserve p.reserveReleaseBps).toNat * p.availSplitBps.toNat < 2 ^ 64)
    (hle : (mulBps (mulBps reserve p.reserveReleaseBps) p.workSplitBps).toNat +
      (mulBps (mulBps reserve p.reserveReleaseBps) p.availSplitBps).toNat ≤
        (mulBps reserve p.reserveReleaseBps).toNat) :
    (epochRelease reserve demand p).Exact reserve demand p := by
  obtain ⟨-, hrelease, hgate, -⟩ := Params.validate_eq_ok.1 hv
  obtain ⟨hcap, hcapeq⟩ := toNat_gate hd hgate
  have hmax : (mulBps reserve p.reserveReleaseBps).toNat ≤ reserve.toNat := toNat_bpsOf_le hrelease
  have hwork := toNat_work reserve demand p
  have hsec := toNat_security reserve demand p
  have hreleased := toNat_released reserve demand p
  have havail : (epochRelease reserve demand p).avail =
    mulBps (mulBps reserve p.reserveReleaseBps) p.availSplitBps := rfl
  unfold maxSupply at hr
  have hsum : (epochRelease reserve demand p).work.toNat +
      (epochRelease reserve demand p).avail.toNat + (epochRelease reserve demand p).security.toNat ≤
        reserve.toNat := by
    rw [havail]
    omega
  exact
    { parts := rfl
      covered := UInt64.le_iff_toNat_le.2 (by omega)
      rest := rfl
      gate := by rw [hwork, hcapeq, Nat.mul_comm p.workGateBps.toNat]; exact Nat.min_le_right _ _
      release := (toNat_release hr hrelease).1
      workPool := hw
      availPool := ha
      capWork := hcap
      sum := by omega }

/-- Splits whose sum does not wrap are at most the whole. -/
theorem epochRelease_exact_of_splits (hv : p.validate = .ok ()) (hr : reserve.toNat ≤ maxSupply)
    (hd : demand.toNat ≤ maxSupply) (hsplits : p.workSplitBps.toNat + p.availSplitBps.toNat < 2 ^ 64) :
    (epochRelease reserve demand p).Exact reserve demand p := by
  obtain ⟨hsum, hrelease, -⟩ := Params.validate_eq_ok.1 hv
  rw [Nat.mod_eq_of_lt hsplits] at hsum
  have hmax : (mulBps reserve p.reserveReleaseBps).toNat ≤ reserve.toNat := toNat_bpsOf_le hrelease
  have hsmall : (mulBps reserve p.reserveReleaseBps).toNat * 10000 < 2 ^ 64 := toNat_bpsOf_lt _ _
  have hwork := Nat.mul_le_mul_left (mulBps reserve p.reserveReleaseBps).toNat
    (show p.workSplitBps.toNat ≤ 10000 by omega)
  have havail := Nat.mul_le_mul_left (mulBps reserve p.reserveReleaseBps).toNat
    (show p.availSplitBps.toNat ≤ 10000 by omega)
  have hboth := Nat.mul_le_mul_left (mulBps reserve p.reserveReleaseBps).toNat hsum
  rw [Nat.mul_add] at hboth
  have hshare {bps : UInt64} (h : bps.toNat ≤ 10000) :
      (mulBps (mulBps reserve p.reserveReleaseBps) bps).toNat =
        (mulBps reserve p.reserveReleaseBps).toNat * bps.toNat / 10000 :=
    toNat_bpsOf_of_small hsmall h
  refine exact_of_pools hv hr hd (by omega) (by omega) ?_
  rw [hshare (by omega), hshare (by omega)]
  omega

/-- Of splits whose sum wraps, one is at least `2 ^ 63`. A release of two coins or more multiplies it past
the width; a release of one coin leaves a remainder that wraps, and is more than any Reserve. -/
theorem not_exact_of_splits (hr : reserve.toNat ≤ maxSupply)
    (hsplits : 2 ^ 64 ≤ p.workSplitBps.toNat + p.availSplitBps.toNat)
    (hpos : 0 < (mulBps reserve p.reserveReleaseBps).toNat) :
    ¬(epochRelease reserve demand p).Exact reserve demand p := by
  intro h
  have hw := h.workPool
  have ha := h.availPool
  obtain hone | htwo : (mulBps reserve p.reserveReleaseBps).toNat = 1 ∨
      2 ≤ (mulBps reserve p.reserveReleaseBps).toNat := by omega
  · have hwork := toNat_work reserve demand p
    have hsec := toNat_security reserve demand p
    have hreleased := toNat_released reserve demand p
    have hcovered := UInt64.le_iff_toNat_le.1 h.covered
    have hsum := h.sum
    have havail : (epochRelease reserve demand p).avail =
      mulBps (mulBps reserve p.reserveReleaseBps) p.availSplitBps := rfl
    have hwp : (mulBps (mulBps reserve p.reserveReleaseBps) p.workSplitBps).toNat =
        p.workSplitBps.toNat / 10000 := by
      rw [mulBps, toNat_bpsOf, hone, Nat.one_mul, Nat.mod_eq_of_lt (UInt64.toNat_lt _)]
    have hap : (mulBps (mulBps reserve p.reserveReleaseBps) p.availSplitBps).toNat =
        p.availSplitBps.toNat / 10000 := by
      rw [mulBps, toNat_bpsOf, hone, Nat.one_mul, Nat.mod_eq_of_lt (UInt64.toNat_lt _)]
    have hwlt := UInt64.toNat_lt p.workSplitBps
    have halt := UInt64.toNat_lt p.availSplitBps
    rw [havail] at hreleased hsum
    rw [hone, hwp, hap] at hsec
    rw [hap] at hreleased hsum
    rw [hwp] at hwork
    unfold maxSupply at hr
    omega
  · have hw' := Nat.mul_le_mul_right p.workSplitBps.toNat htwo
    have ha' := Nat.mul_le_mul_right p.availSplitBps.toNat htwo
    omega

/-- A release of validated parameters is exact if and only if it releases nothing or the two splits do not
wrap together. -/
theorem epochRelease_exact (p : Params) (reserve demand : UInt64) (hv : p.validate = .ok ())
    (hr : reserve.toNat ≤ maxSupply) (hd : demand.toNat ≤ maxSupply) :
    (epochRelease reserve demand p).Exact reserve demand p ↔
      reserve.toNat * p.reserveReleaseBps.toNat < 10000 ∨
        p.workSplitBps.toNat + p.availSplitBps.toNat < 2 ^ 64 := by
  obtain ⟨-, hrelease, -⟩ := Params.validate_eq_ok.1 hv
  obtain ⟨-, heq⟩ := toNat_release hr hrelease
  constructor
  · intro h
    by_contra hno
    obtain ⟨hten, hsplits⟩ := not_or.1 hno
    exact not_exact_of_splits hr (not_lt.1 hsplits) (by omega) h
  · rintro (hten | hsplits)
    · have hzero : mulBps reserve p.reserveReleaseBps = 0 := UInt64.toNat_inj.1 (by
        rw [heq, Nat.div_eq_of_lt hten]
        rfl)
      have hpool (bps : UInt64) : mulBps 0 bps = 0 := by simp [mulBps, bpsOf]
      apply exact_of_pools hv hr hd <;> rw [hzero] <;> simp [hpool]
    · exact epochRelease_exact_of_splits hv hr hd hsplits

/-- Parameters that pass although their work split is `2 ^ 64 - 1`. -/
def wrappedSplits : Params := ⟨2200, 0xffffffffffffffff, 1, 15000, 100⟩

/-- Of a Reserve of 100000 coins they release more than it holds. -/
theorem epochRelease_wrapped : wrappedSplits.validate = .ok () ∧
    100000 < (epochRelease 100000 0 wrappedSplits).released ∧
    ¬(epochRelease 100000 0 wrappedSplits).Exact 100000 0 wrappedSplits := by
  have hmore : 100000 < (epochRelease 100000 0 wrappedSplits).released := by decide
  exact ⟨by decide, hmore, fun h => absurd h.covered (UInt64.not_le.2 hmore)⟩

/-- The shipped parameters and a Reserve of a million coins. -/
theorem epochRelease_exact_default :
    (epochRelease 1000000000000 1000 .default).Exact 1000000000000 1000 .default :=
  (epochRelease_exact .default 1000000000000 1000 (by decide) (by decide) (by decide)).2 (.inr (by decide))

end Release

end Dendra.Emission
