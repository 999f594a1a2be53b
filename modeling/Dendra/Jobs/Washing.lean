import Dendra.Jobs.Split

/-!
# Washing

A party that pays a miner of its own from another address loses the burn, the team's and the
treasury's share of each fee, and earns the miner a demand that a claim turns into subsidy.
`WashSubsidyNegativeEV` compares the two as rates. The settlement floors every share of every fee, the
claim floors the subsidy of the sum once, and on small fees the burn is floored away.

* `Priced`: one fee loses what it unlocks, before the subsidy is floored (`priced_def`).
* `washing_iff`: no list of fees profits exactly when every accepted fee is priced.
* `priced_of_large`: the check of the rates prices every fee from 10 ^ 8 times the gate on.
* `washing_dust`: two fees of seven coins under the shipped rates.
-/

namespace Dendra.Jobs

open Word

/-- What a settlement asks of its fee. -/
structure Accepts (p : Params) (fee : UInt64) : Prop where
  covered : fee ≥ bpsOf fee p.feeBurnBps + cutOf p fee
  rest : minerNetOf p fee ≠ 0

/-- The demand that a fee earns. -/
def creditOf (p : Params) (fee : UInt64) : Nat :=
  ((splitFee p fee).treasury + (splitFee p fee).team).toNat

/-- What no washer gets back of a fee. -/
def lossOf (p : Params) (fee : UInt64) : Nat :=
  (splitFee p fee).burn.toNat + (splitFee p fee).team.toNat + (splitFee p fee).treasury.toNat

/-- The subsidy that the fees of a list unlock together. -/
def unlocked (p : Params) (fees : List UInt64) : Nat :=
  (fees.map (creditOf p)).sum * p.workGateBps.toNat / 10000

/-- What is lost of them. -/
def lost (p : Params) (fees : List UInt64) : Nat := (fees.map (lossOf p)).sum

/-- The share of the cut that earns a demand, at the gate, is at most the burn and that share: both
sides in the floors of this one fee, with no floor on the subsidy. -/
def Priced (p : Params) (fee : UInt64) : Prop :=
  let cut := bpsOf fee p.protocolFeeBps
  let share := cut - bpsOf cut p.validatorRewardBps
  let team := bpsOf cut p.teamFeeBps
  p.workGateBps.toNat * share.toNat ≤
    10000 * ((bpsOf fee p.feeBurnBps).toNat + team.toNat + (share - team).toNat)

section Lists

variable {p : Params} {fee : UInt64} {fees : List UInt64}

/-- The treasury takes what the team leaves. -/
theorem treasury_add_team (p : Params) (fee : UInt64) :
    (splitFee p fee).treasury + (splitFee p fee).team =
      cutOf p fee - (splitFee p fee).validators :=
  UInt64.sub_add_cancel _ _

theorem priced_def : Priced p fee ↔ p.workGateBps.toNat * creditOf p fee ≤ 10000 * lossOf p fee := by
  rw [creditOf, treasury_add_team]
  exact Iff.rfl

theorem sum_le_of_priced (h : ∀ f ∈ fees, Priced p f) :
    p.workGateBps.toNat * (fees.map (creditOf p)).sum ≤ 10000 * lost p fees := by
  induction fees with
  | nil => exact Nat.zero_le _
  | cons f l ih =>
    have hf := priced_def.1 (h f (.head _))
    have hl := ih fun g hg => h g (.tail _ hg)
    rw [lost] at hl
    rw [lost, List.map_cons, List.sum_cons, List.map_cons, List.sum_cons, Nat.mul_add, Nat.mul_add]
    exact Nat.add_le_add hf hl

/-- Fees that are priced one by one are priced together. -/
theorem unlocked_le (h : ∀ f ∈ fees, Priced p f) : unlocked p fees ≤ lost p fees := by
  have hsum := sum_le_of_priced h
  rw [unlocked, Nat.mul_comm]
  omega

/-- Of ten thousand equal fees, the floor takes nothing. -/
theorem unlocked_replicate :
    unlocked p (List.replicate 10000 fee) = p.workGateBps.toNat * creditOf p fee := by
  rw [unlocked, List.map_replicate, List.sum_replicate, smul_eq_mul, Nat.mul_assoc,
    Nat.mul_div_cancel_left _ (by decide), Nat.mul_comm]

theorem lost_replicate : lost p (List.replicate 10000 fee) = 10000 * lossOf p fee := by
  rw [lost, List.map_replicate, List.sum_replicate, smul_eq_mul]

/-- The cap that a claim computes is at most what the list unlocks: a wrap only makes it smaller. -/
theorem subsidyCap_le_unlocked :
    (bpsOf (fees.map fun f => (splitFee p f).treasury + (splitFee p f).team).sum
      p.workGateBps).toNat ≤ unlocked p fees := by
  have hsum : (fees.map fun f => (splitFee p f).treasury + (splitFee p f).team).sum.toNat ≤
      (fees.map (creditOf p)).sum := by
    induction fees with
    | nil => exact le_rfl
    | cons f l ih =>
      rw [List.map_cons, List.sum_cons, List.map_cons, List.sum_cons]
      exact (toNat_add_le _ _).trans (Nat.add_le_add le_rfl ih)
  rw [toNat_bpsOf, unlocked]
  exact Nat.div_le_div_right ((Nat.mod_le _ _).trans (Nat.mul_le_mul_right _ hsum))

end Lists

/-! ## One fee -/

section Fee

variable {p : Params} {fee : UInt64}

/-- The demand a fee earns is its cut without the validators' share. -/
theorem creditOf_eq (hs : p.validatorRewardBps.toNat + p.teamFeeBps.toNat ≤ 10000) :
    creditOf p fee = (cutOf p fee).toNat - (splitFee p fee).validators.toNat := by
  have hle := shares_le fee hs
  have hv : (splitFee p fee).validators ≤ cutOf p fee := by
    rw [UInt64.le_iff_toNat_le]
    exact (Nat.le_add_right _ _).trans hle
  rw [creditOf, treasury_add_team, toNat_sub hv]

theorem lossOf_eq (hs : p.validatorRewardBps.toNat + p.teamFeeBps.toNat ≤ 10000) :
    lossOf p fee = (splitFee p fee).burn.toNat + creditOf p fee := by
  have hle : (splitFee p fee).validators.toNat + (splitFee p fee).team.toNat ≤
    (cutOf p fee).toNat := shares_le fee hs
  have hv : (splitFee p fee).validators ≤ cutOf p fee := UInt64.le_iff_toNat_le.2 (by omega)
  have ht : (splitFee p fee).team ≤ cutOf p fee - (splitFee p fee).validators :=
    UInt64.le_iff_toNat_le.2 (by rw [toNat_sub hv]; omega)
  rw [lossOf, creditOf_eq hs, show (splitFee p fee).treasury =
    cutOf p fee - (splitFee p fee).validators - (splitFee p fee).team from rfl, toNat_sub ht,
    toNat_sub hv]
  omega

/-- Beyond the whole, the gate pays for the demand out of the burn. -/
theorem priced_iff (hs : p.validatorRewardBps.toNat + p.teamFeeBps.toNat ≤ 10000) :
    Priced p fee ↔ (p.workGateBps.toNat - 10000) * creditOf p fee ≤
      10000 * (splitFee p fee).burn.toNat := by
  rw [priced_def, lossOf_eq hs, Nat.mul_add, Nat.sub_mul]
  omega

/-- The rates of the check, as one inequality. -/
theorem rate_of_wash (hw : p.washSubsidyNegativeEV p.workGateBps = true)
    (hv : p.validatorRewardBps.toNat ≤ 10000) :
    p.workGateBps.toNat * (p.protocolFeeBps.toNat * (10000 - p.validatorRewardBps.toNat)) = 0 ∨
      p.workGateBps.toNat * (p.protocolFeeBps.toNat * (10000 - p.validatorRewardBps.toNat)) <
        (p.protocolFeeBps.toNat * (10000 - p.validatorRewardBps.toNat) +
          p.feeBurnBps.toNat * 10000) * 10000 := by
  have hle : p.validatorRewardBps ≤ 10000 := UInt64.le_iff_toNat_le.2 hv
  have hrate : ((10000 : UInt64) - p.validatorRewardBps).toNat =
      10000 - p.validatorRewardBps.toNat := toNat_sub hle
  simp only [Params.washSubsidyNegativeEV, gt_iff_lt, UInt64.not_lt.2 hle, if_false, hrate] at hw
  split at hw
  · next h0 => exact .inl h0
  · exact .inr (of_decide_eq_true hw)

/-- From 10 ^ 8 times the gate on, the rates decide: the floors take less than the check leaves. -/
theorem floors_le {F B P V G : Nat} (hV : V ≤ 10000) (hlarge : 10 ^ 8 * G ≤ F)
    (hw : G * (P * (10000 - V)) = 0 ∨
      G * (P * (10000 - V)) < (P * (10000 - V) + B * 10000) * 10000) :
    (G - 10000) * (F * P / 10000 - F * P / 10000 * V / 10000) ≤ 10000 * (F * B / 10000) := by
  rcases Nat.le_total G 10000 with hG | hG
  · rw [Nat.sub_eq_zero_of_le hG, Nat.zero_mul]
    exact Nat.zero_le _
  obtain ⟨g, rfl⟩ := Nat.exists_eq_add_of_le' hG
  rw [Nat.add_sub_cancel]
  generalize hc : F * P / 10000 - F * P / 10000 * V / 10000 = c
  -- the credit is at most its rate and one more
  have hcredit : 10 ^ 8 * c < F * (P * (10000 - V)) + 10 ^ 8 := by
    have ha := Nat.div_mul_le_self (F * P) 10000
    have hmul := Nat.mul_le_mul_right (10000 - V) ha
    have hsplit : F * P / 10000 * (10000 - V) + F * P / 10000 * V = F * P / 10000 * 10000 := by
      rw [← Nat.mul_add, Nat.sub_add_cancel hV]
    have hscale : F * P / 10000 * 10000 * (10000 - V) = 10000 * (F * P / 10000 * (10000 - V)) := by
      rw [Nat.mul_comm (F * P / 10000) 10000, Nat.mul_assoc]
    rw [← Nat.mul_assoc]
    omega
  have hburn : F * B < 10000 * (F * B / 10000) + 10000 := by omega
  rcases hw with h0 | hlt
  · have hN : P * (10000 - V) = 0 := by
      rcases Nat.mul_eq_zero.1 h0 with h | h
      · omega
      · exact h
    rw [hN, Nat.mul_zero] at hcredit
    have hnone : c = 0 := by omega
    rw [hnone, Nat.mul_zero]
    exact Nat.zero_le _
  · have hrate : g * (P * (10000 - V)) + 1 ≤ 10 ^ 8 * B := by
      rw [Nat.add_mul] at hlt
      omega
    have h1 := Nat.mul_le_mul_left g hcredit.le
    have h2 := Nat.mul_le_mul_left F hrate
    have h3 : g * (F * (P * (10000 - V))) = F * (g * (P * (10000 - V))) := by ac_rfl
    have h4 : F * (10 ^ 8 * B) = 10 ^ 8 * (F * B) := by ac_rfl
    have h5 : g * (10 ^ 8 * c) = 10 ^ 8 * (g * c) := by ac_rfl
    rw [Nat.mul_add, h3, h5] at h1
    rw [Nat.mul_add, h4] at h2
    omega

/-- The check of the rates prices every fee that is large enough for the floors not to matter. -/
theorem priced_of_large (hc : p.Bounded) (hw : p.washSubsidyNegativeEV p.workGateBps = true)
    (hf : fee.toNat ≤ 10 ^ 13) (hlarge : 10 ^ 8 * p.workGateBps.toNat ≤ fee.toNat) :
    Priced p fee := by
  have hshares := hc.shares
  have hV : p.validatorRewardBps.toNat ≤ 10000 := by omega
  have hcutlt : (cutOf p fee).toNat * 10000 < 2 ^ 64 := toNat_bpsOf_lt _ _
  -- the three floors
  have hb : (splitFee p fee).burn.toNat = fee.toNat * p.feeBurnBps.toNat / 10000 := by
    rw [show (splitFee p fee).burn = bpsOf fee p.feeBurnBps from rfl, toNat_bpsOf,
      Nat.mod_eq_of_lt (mul_lt_of_le hf hc.feeBurn)]
  have ha : (cutOf p fee).toNat = fee.toNat * p.protocolFeeBps.toNat / 10000 := by
    rw [cutOf, toNat_bpsOf, Nat.mod_eq_of_lt (mul_lt_of_le hf hc.protocolFee)]
  have hv : (splitFee p fee).validators.toNat =
      (cutOf p fee).toNat * p.validatorRewardBps.toNat / 10000 :=
    toNat_bpsOf_of_small hcutlt hV
  rw [priced_iff hshares, creditOf_eq hshares, hb, hv, ha]
  exact floors_le hV hlarge (rate_of_wash hw hV)

end Fee

/-! ## Lists of fees -/

/-- No list of accepted fees unlocks more than it loses exactly when every accepted fee is priced; and
a list of fees that are priced never does. -/
theorem washing_iff (p : Params) :
    (∀ fees : List UInt64, (∀ f ∈ fees, Accepts p f ∧ Priced p f) → unlocked p fees ≤ lost p fees) ∧
      ((∀ fees : List UInt64, (∀ f ∈ fees, Accepts p f) → unlocked p fees ≤ lost p fees) ↔
        ∀ f, Accepts p f → Priced p f) := by
  refine ⟨fun fees h => unlocked_le fun f hf => (h f hf).2, fun h f hf => ?_, fun h fees hfees => ?_⟩
  · have hmany := h (List.replicate 10000 f) fun g hg => by
      rw [List.eq_of_mem_replicate hg]
      exact hf
    rw [unlocked_replicate, lost_replicate] at hmany
    exact priced_def.2 hmany
  · exact unlocked_le fun f hf => h f (hfees f hf)

/-- Audit mode has the shipped rates, and both checks accept it: of seven coins nothing is burned, and
the one coin of the cut goes to the treasury. -/
theorem accepts_dust : Accepts auditMode 7 ∧ creditOf auditMode 7 = 1 ∧ lossOf auditMode 7 = 1 :=
  ⟨⟨by decide, by decide⟩, by decide, by decide⟩

/-- Two fees of seven coins lose two coins and unlock three. -/
theorem washing_dust : auditMode.validate = .ok () ∧
    auditMode.washSubsidyNegativeEV auditMode.workGateBps = true ∧
    (∀ f ∈ ([7, 7] : List UInt64), Accepts auditMode f) ∧
    lost auditMode [7, 7] = 2 ∧ unlocked auditMode [7, 7] = 3 := by
  refine ⟨validate_auditMode, by decide, fun f hf => ?_, by decide, by decide⟩
  simp only [List.mem_cons, List.not_mem_nil, or_false, or_self] at hf
  rw [hf]
  exact accepts_dust.1

/-- A fee of fifteen thousand times 10 ^ 8 is priced under them. -/
example : Priced auditMode 1500000000000 :=
  priced_of_large (p := auditMode) (by decide) (by decide) (by decide) (by decide)

end Dendra.Jobs
