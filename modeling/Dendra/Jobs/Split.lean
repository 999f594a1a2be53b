import Dendra.Jobs.Progress.Settle
import Dendra.Jobs.Application

/-!
# The split of a fee

`settleOptimistic` takes the burn and the cut out of a fee, shares the cut out, and retains a part of
what is left, all in machine words. Nothing in it wraps as long as the two shares of the cut are parts
of a whole; `Validate` compares their sum as a machine word, and that sum wraps.

* `Split.Exact`: the parts add up, and no operation of the split wraps.
* `exact_of_shares`: the shares of a fee that small are exact when they are parts of a whole.
* `split_exact_iff`: when the split of an accepted settlement is exact.
* `split_wraps`: accepted parameters whose shares add up to 2 ^ 64 + 10000.
-/

namespace Dendra.Jobs

open Word

/-- The parts of a fee, in the order in which the settlement names them. -/
def Split.parts (sp : Split) : List UInt64 :=
  [sp.burn, sp.validators, sp.team, sp.treasury, sp.held, sp.immediate]

/-- What the split of a fee multiplies. -/
def splitProducts (p : Params) (fee : UInt64) : List (UInt64 × UInt64) :=
  [(fee, p.feeBurnBps), (fee, p.protocolFeeBps), (cutOf p fee, p.validatorRewardBps),
    (cutOf p fee, p.teamFeeBps), (minerNetOf p fee, p.holdBps)]

/-- What the settlement adds: the burn to the cut, and the two shares that earn a demand. -/
def splitSums (p : Params) (fee : UInt64) : List (UInt64 × UInt64) :=
  [(bpsOf fee p.feeBurnBps, cutOf p fee), ((splitFee p fee).treasury, (splitFee p fee).team)]

/-- What the split subtracts. -/
def splitDifferences (p : Params) (fee : UInt64) : List (UInt64 × UInt64) :=
  [(cutOf p fee, (splitFee p fee).validators),
    (cutOf p fee - (splitFee p fee).validators, (splitFee p fee).team),
    (fee, bpsOf fee p.feeBurnBps), (fee - bpsOf fee p.feeBurnBps, cutOf p fee),
    (minerNetOf p fee, (splitFee p fee).held)]

/-- The parts of a fee add up to it and do not exceed it, and no operation of the split wraps. -/
structure Split.Exact (p : Params) (fee : UInt64) : Prop where
  total : ((splitFee p fee).parts.map UInt64.toNat).sum = fee.toNat
  parts : ∀ x ∈ (splitFee p fee).parts, x ≤ fee
  products : ∀ q ∈ splitProducts p fee, q.1.toNat * q.2.toNat < 2 ^ 64
  sums : ∀ q ∈ splitSums p fee, q.1.toNat + q.2.toNat < 2 ^ 64
  differences : ∀ q ∈ splitDifferences p fee, q.2 ≤ q.1

section Parts

variable {p : Params} {fee : UInt64}

/-- A fee of at most 10 ^ 13 leaves room for a product with basis points. -/
theorem mul_lt_of_le {x bps : UInt64} (hx : x.toNat ≤ 10 ^ 13) (hb : bps.toNat ≤ 10000) :
    x.toNat * bps.toNat < 2 ^ 64 := by
  have h := Nat.mul_le_mul hx hb
  omega

/-- The cut of a fee that is too small for one is nothing. -/
theorem cutOf_eq_zero_iff (hf : fee.toNat ≤ 10 ^ 13) (hp : p.protocolFeeBps.toNat ≤ 10000) :
    cutOf p fee = 0 ↔ fee.toNat * p.protocolFeeBps.toNat < 10000 := by
  rw [← UInt64.toNat_inj, cutOf, toNat_bpsOf, Nat.mod_eq_of_lt (mul_lt_of_le hf hp)]
  simp [Nat.div_eq_zero_iff]

/-- The two shares of a cut, when they are parts of a whole or there is no cut. -/
theorem shares_of_cut
    (h : p.validatorRewardBps.toNat + p.teamFeeBps.toNat ≤ 10000 ∨ cutOf p fee = 0) :
    (splitFee p fee).validators.toNat + (splitFee p fee).team.toNat ≤ (cutOf p fee).toNat := by
  rcases h with hs | h0
  · exact shares_le fee hs
  · have hnone (bps : UInt64) : (bpsOf (cutOf p fee) bps).toNat = 0 := by
      rw [toNat_bpsOf, h0]
      simp
    show (bpsOf (cutOf p fee) p.validatorRewardBps).toNat + (bpsOf (cutOf p fee) p.teamFeeBps).toNat ≤ _
    rw [hnone, hnone]
    exact Nat.zero_le _

/-- The products with the cut do not wrap either. -/
theorem cut_mul_lt (hcut : (cutOf p fee).toNat ≤ 10 ^ 13) {bps : UInt64}
    (h : bps.toNat ≤ 10000 ∨ cutOf p fee = 0) : (cutOf p fee).toNat * bps.toNat < 2 ^ 64 := by
  rcases h with hb | h0
  · exact mul_lt_of_le hcut hb
  · rw [h0]
    simp

/-- The split of a fee that the settlement accepts is exact when the two shares of its cut are parts
of a whole, or when there is no cut to share. -/
theorem exact_of_shares (hc : p.Checked) (hf : fee.toNat ≤ 10 ^ 13)
    (hge : fee ≥ bpsOf fee p.feeBurnBps + cutOf p fee)
    (h : p.validatorRewardBps.toNat + p.teamFeeBps.toNat ≤ 10000 ∨ cutOf p fee = 0) :
    Split.Exact p fee := by
  have hnet := toNat_minerNetOf hge
  have hshares := shares_of_cut h
  have hheld : (splitFee p fee).held ≤ minerNetOf p fee := bpsOf_le hc.hold
  have hv : (splitFee p fee).validators ≤ cutOf p fee :=
    UInt64.le_iff_toNat_le.2 (by omega)
  have ht : (splitFee p fee).team ≤ cutOf p fee - (splitFee p fee).validators :=
    UInt64.le_iff_toNat_le.2 (by rw [toNat_sub hv]; omega)
  have hburn : bpsOf fee p.feeBurnBps ≤ fee := UInt64.le_iff_toNat_le.2 (by omega)
  have hcut : cutOf p fee ≤ fee - bpsOf fee p.feeBurnBps :=
    UInt64.le_iff_toNat_le.2 (by rw [toNat_sub hburn]; omega)
  -- the two parts that are differences
  have htreasury : (splitFee p fee).treasury.toNat =
      (cutOf p fee).toNat - (splitFee p fee).validators.toNat - (splitFee p fee).team.toNat := by
    rw [show (splitFee p fee).treasury =
      cutOf p fee - (splitFee p fee).validators - (splitFee p fee).team from rfl, toNat_sub ht,
      toNat_sub hv]
  have himmediate : (splitFee p fee).immediate.toNat =
      (minerNetOf p fee).toNat - (splitFee p fee).held.toNat := by
    rw [show (splitFee p fee).immediate = minerNetOf p fee - (splitFee p fee).held from rfl,
      toNat_sub hheld]
  have hheldN := toNat_le_of_le hheld
  have hburnN : (splitFee p fee).burn.toNat = (bpsOf fee p.feeBurnBps).toNat := rfl
  have hfits : ∀ bps : UInt64, bps.toNat ≤ 10000 ∨ cutOf p fee = 0 →
      (cutOf p fee).toNat * bps.toNat < 2 ^ 64 := fun bps => cut_mul_lt (by omega)
  refine ⟨?_, ?_, ?_, ?_, ?_⟩
  · simp only [Split.parts, List.map_cons, List.map_nil, List.sum_cons, List.sum_nil]
    omega
  · simp only [Split.parts, List.forall_mem_cons, List.not_mem_nil, false_implies, implies_true,
      and_true, UInt64.le_iff_toNat_le]
    omega
  · simp only [splitProducts, List.forall_mem_cons, List.not_mem_nil, false_implies, implies_true,
      and_true]
    exact ⟨mul_lt_of_le hf hc.feeBurn, mul_lt_of_le hf hc.protocolFee,
      hfits _ (h.imp_left fun hs => by omega), hfits _ (h.imp_left fun hs => by omega),
      mul_lt_of_le (by omega) hc.hold⟩
  · simp only [splitSums, List.forall_mem_cons, List.not_mem_nil, false_implies, implies_true,
      and_true]
    omega
  · simp only [splitDifferences, List.forall_mem_cons, List.not_mem_nil, false_implies, implies_true,
      and_true]
    exact ⟨hv, ht, hburn, hcut, hheld⟩

/-- A word of at least 2 ^ 63 basis points shares no cut exactly: the product wraps, or it gives more
than the fee. -/
theorem cutOf_eq_zero_of_large {bps : UInt64} (hf : fee.toNat ≤ 10 ^ 13) (hbps : 2 ^ 63 ≤ bps.toNat)
    (hprod : (cutOf p fee).toNat * bps.toNat < 2 ^ 64) (hpart : bpsOf (cutOf p fee) bps ≤ fee) :
    cutOf p fee = 0 := by
  by_contra hne
  have hpos : (cutOf p fee).toNat ≠ 0 := fun h0 => hne (UInt64.toNat_inj.1 (h0.trans rfl))
  have hle := toNat_le_of_le hpart
  rw [toNat_bpsOf, Nat.mod_eq_of_lt hprod] at hle
  have hmul : 1 * 2 ^ 63 ≤ (cutOf p fee).toNat * bps.toNat := Nat.mul_le_mul (by omega) hbps
  omega

/-- Shares that `Validate` accepts, although they are no parts of a whole: one of them is at least
2 ^ 63. -/
theorem large_of_validate [Chain] (hv : p.validate = .ok ())
    (hs : ¬ p.validatorRewardBps.toNat + p.teamFeeBps.toNat ≤ 10000) :
    2 ^ 63 ≤ p.validatorRewardBps.toNat ∨ 2 ^ 63 ≤ p.teamFeeBps.toNat := by
  simp only [Params.validate, bind_unit_ok, refuse_ok] at hv
  have hsum := Params.toNat_le_of_not_gt hv.2.1
  rw [UInt64.toNat_add] at hsum
  omega

end Parts

section Result

variable [Chain]

/-- Under parameters that `Validate` accepts, the split of an accepted settlement of at most 10 ^ 13
is exact exactly when the two shares of the cut add up to at most 10000 basis points over the naturals, or the
fee is too small for a cut. -/
theorem split_exact_iff {c : Ctx} {job : Job} {s s' : State} (hv : s.params.validate = .ok ())
    (hf : job.fee.toNat ≤ 10 ^ 13) (h : settleOptimistic c job s = .ok s') :
    Split.Exact s.params job.fee ↔
      s.params.validatorRewardBps.toNat + s.params.teamFeeBps.toNat ≤ 10000 ∨
        job.fee.toNat * s.params.protocolFeeBps.toNat < 10000 := by
  have hc := Params.Checked.of_validate hv
  obtain ⟨-, -, -, -, -, -, -, -, -, -, hge, -⟩ := settleOptimistic_spec h
  rw [← cutOf_eq_zero_iff hf hc.protocolFee]
  constructor
  · intro he
    by_cases hs : s.params.validatorRewardBps.toNat + s.params.teamFeeBps.toNat ≤ 10000
    · exact .inl hs
    · refine .inr ?_
      rcases large_of_validate hv hs with hlarge | hlarge
      · exact cutOf_eq_zero_of_large hf hlarge
          (he.products (cutOf s.params job.fee, _) (by simp [splitProducts]))
          (he.parts (splitFee s.params job.fee).validators (by simp [Split.parts]))
      · exact cutOf_eq_zero_of_large hf hlarge
          (he.products (cutOf s.params job.fee, s.params.teamFeeBps) (by simp [splitProducts]))
          (he.parts (splitFee s.params job.fee).team (by simp [Split.parts]))
  · exact exact_of_shares hc hf hge

end Result

/-! ## A run -/

/-- Two shares whose sum, as a machine word, is 10000. -/
def wrapMode : Params := { auditMode with validatorRewardBps := 2 ^ 64 - 1, teamFeeBps := 10001 }

/-- The settlement of a run whose parameters governance changed to these. -/
theorem exists_wrapped : ∃ s s' job, Reachable (fun _ _ => True) s ∧
    s.params.validate = .ok () ∧ s.params.washSubsidyNegativeEV s.params.workGateBps = true ∧
    settleOptimistic (blockAt 5) job s = .ok s' ∧ job.fee = 100 ∧
    (s.params.validatorRewardBps.toNat, s.params.teamFeeBps.toNat) = (2 ^ 64 - 1, 10001) ∧
    100 < (splitFee s.params 100).validators := by
  obtain ⟨s, hs, ht⟩ := exists_reachable (fun _ _ _ => trivial)
    (reachable_village validate_auditMode (by decide) fun _ _ _ _ => trivial)
    (show endsIn free
      (fun s => decide ((∃ job ∈ s.job ticket, (settleOptimistic (blockAt 5) job s).isOk = true ∧
        job.fee = 100) ∧ s.params.validate.isOk = true ∧
        s.params.washSubsidyNegativeEV s.params.workGateBps = true ∧
        (s.params.validatorRewardBps.toNat, s.params.teamFeeBps.toNat) = (2 ^ 64 - 1, 10001) ∧
        100 < (splitFee s.params 100).validators))
      ((blockAt 2, .updateParams ⟨governance, wrapMode⟩) :: served.take 3)
      (village auditMode) = true by rewrite [application_eq_tabled]; decide +kernel)
  obtain ⟨⟨job, -, hok, hfee⟩, hv, hw, hsh, hpart⟩ := of_decide_eq_true ht
  have hv' : s.params.validate = .ok () := by
    obtain ⟨u, hu⟩ := exists_ok hv
    exact hu
  exact ⟨s, _, job, hs, hv', hw, eq_ok_outcome (s := s) hok, hfee, hsh, hpart⟩

/-- The shares of the cut are no parts of a whole, and a cut of fifteen coins is shared out as more
than a thousand million million. -/
theorem split_exact_iff_wrapped : ∃ s s' job, settleOptimistic (blockAt 5) job s = .ok s' ∧
    (Split.Exact s.params job.fee ↔
      s.params.validatorRewardBps.toNat + s.params.teamFeeBps.toNat ≤ 10000 ∨
        job.fee.toNat * s.params.protocolFeeBps.toNat < 10000) := by
  obtain ⟨s, s', job, -, hv, -, hset, hfee, -⟩ := exists_wrapped
  exact ⟨s, s', job, hset, split_exact_iff hv (by rw [hfee]; decide) hset⟩

/-- Governance posts shares that `Validate` and the wash check accept, and the next settlement splits
a fee of 100 coins into parts of which one exceeds it. -/
theorem split_wraps : ∃ s s' job, Reachable (fun _ _ => True) s ∧ s.params.validate = .ok () ∧
    s.params.washSubsidyNegativeEV s.params.workGateBps = true ∧ job.fee.toNat ≤ 10 ^ 13 ∧
    settleOptimistic (blockAt 5) job s = .ok s' ∧ ¬ Split.Exact s.params job.fee := by
  obtain ⟨s, s', job, hs, hv, hw, hset, hfee, -, hpart⟩ := exists_wrapped
  refine ⟨s, s', job, hs, hv, hw, by rw [hfee]; decide, hset, fun he => ?_⟩
  have hle := he.parts (splitFee s.params job.fee).validators (by simp [Split.parts])
  rw [hfee] at hle
  exact absurd hle (UInt64.not_le.2 hpart)

end Dendra.Jobs
