import Dendra.Jobs.Application

/-!
# The bar of a jury

A hard decision needs a number of verdicts on its side (`auditRelativeBar`) and a number of verdicts in
all (`effectiveSlashFloor`). Both start from a governed quorum, a `uint64` that is converted to `int`: from
2 ^ 63 on it comes out negative, and `Validate` bounds it only from below, unless the draw size is governed
too.

* `tally_exclusive`: no tally finds for both sides.
* `jury_bar_iff`: when the bar and the floor are what they are meant to be.
* `jury_bar_negative`: accepted parameters under which two verdicts of three seats are enough.
-/

namespace Dendra.Jobs

open Word

section Bar

variable {p : Params}

/-- The floor is at least the compiled one exactly when the quorum fits the signed integer. -/
theorem effectiveSlashFloor_ge_iff [Chain] (hv : p.validate = .ok ()) (hm : p.verificationMode = 1) :
    4 ≤ effectiveSlashFloor p ↔ p.auditMinQuorum.toNat < 2 ^ 63 := by
  have hword := UInt64.toNat_lt p.auditMinQuorum
  by_cases hq : p.auditMinQuorum > 0
  · have h4 := Params.auditMinQuorum_of_validate hv hm hq
    rw [effectiveSlashFloor, if_pos hq]
    by_cases hlt : p.auditMinQuorum.toNat < 2 ^ 63
    · rw [toInt64_of_lt hlt]
      omega
    · -- the top bit is the sign
      have hneg : toInt64 p.auditMinQuorum = (p.auditMinQuorum.toNat : Int) - 2 ^ 64 := by
        rw [toInt64, BitVec.toInt_eq_toNat_bmod, UInt64.toNat_toBitVec, Int.bmod_def]
        omega
      rw [hneg]
      omega
  · have h0 : p.auditMinQuorum.toNat = 0 := by
      rw [gt_iff_lt, UInt64.lt_iff_toNat_lt] at hq
      simpa using hq
    rw [effectiveSlashFloor, if_neg hq, h0]
    decide

/-- Two thirds of the seats, rounded up. -/
theorem ceil_le_bar (p : Params) (seats : Nat) :
    ⌈(2 * seats : ℚ) / 3⌉ ≤ auditRelativeBar p seats := by
  have hbar : (2 * (seats : Int) + 2) / 3 ≤ auditRelativeBar p seats := by
    rw [auditRelativeBar_eq]
    exact le_max_right _ _
  have hthird : 2 * (seats : Int) ≤ auditRelativeBar p seats * 3 := by omega
  rw [Int.ceil_le, div_le_iff₀ (by norm_num)]
  exact_mod_cast hthird

/-- No tally finds for both sides: the same stakes decide both. -/
theorem tally_exclusive (s : State) (jobId primId : Str) :
    ¬ ((auditVerdictTally s jobId primId).cheated = true ∧
      (auditVerdictTally s jobId primId).valid = true) := by
  rintro ⟨hc, hv⟩
  unfold auditVerdictTally at hc hv
  split at hc
  · cases hc
  · next hseats =>
    rw [if_neg hseats] at hv
    dsimp only at hc hv
    split at hc
    · cases hc
    · next hvotes =>
      rw [if_neg hvotes] at hv
      exact UInt64.lt_asymm (of_decide_eq_true hc) (of_decide_eq_true hv)

/-- The slash of a tally, and its vindication. -/
theorem decisions_exclusive (p : Params) (s : State) (jobId primId : Str) :
    let t := auditVerdictTally s jobId primId
    ¬ (auditSlashDecision p t.cheated t.voters t.invalidVotes t.seats = true ∧
      auditVindicateDecision p t.valid t.voters (t.voters - t.invalidVotes : Int) t.seats = true) := by
  rintro t ⟨hslash, hclear⟩
  simp only [auditSlashDecision, auditVindicateDecision, Bool.and_eq_true] at hslash hclear
  exact tally_exclusive s jobId primId ⟨hslash.2, hclear.2⟩

/-- In audit mode the bar is at least four and at least two thirds of the seats, the floor is at least
four, and no tally is both a slash and a vindication, exactly when the quorum is below 2 ^ 63. -/
theorem jury_bar_iff [Chain] (hv : p.validate = .ok ()) (hm : p.verificationMode = 1) (seats : Nat)
    (s : State) (jobId primId : Str) :
    (max 4 ⌈(2 * seats : ℚ) / 3⌉ ≤ auditRelativeBar p seats ∧ 4 ≤ effectiveSlashFloor p ∧
      let t := auditVerdictTally s jobId primId
      ¬ (auditSlashDecision p t.cheated t.voters t.invalidVotes t.seats = true ∧
        auditVindicateDecision p t.valid t.voters (t.voters - t.invalidVotes : Int) t.seats = true)) ↔
      p.auditMinQuorum.toNat < 2 ^ 63 := by
  rw [← effectiveSlashFloor_ge_iff hv hm]
  constructor
  · rintro ⟨-, hfloor, -⟩
    exact hfloor
  · intro hfloor
    refine ⟨max_le ?_ (ceil_le_bar p seats), hfloor, decisions_exclusive p s jobId primId⟩
    rw [auditRelativeBar_eq]
    exact hfloor.trans (le_max_left _ _)

end Bar

/-- A quorum of 2 ^ 63: its top bit is set. -/
def signedMode : Params := { auditMode with auditMinQuorum := 9223372036854775808 }

theorem validate_signedMode [Chain] : signedMode.validate = .ok () := by
  simp only [Params.validate, Params.validateMode, Params.validateMode1, Params.validateEpoch14,
    Params.validateEpoch15, bind_unit_ok, refuse_ok]
  simp [signedMode, auditMode, Params.default, Params.effectiveAuditFloor]
  decide

/-- Under the compiled quorum, fifteen seats need ten verdicts. -/
theorem jury_bar_iff_compiled : (max 4 ⌈(2 * (15 : Nat) : ℚ) / 3⌉ ≤ auditRelativeBar auditMode 15 ∧
    4 ≤ effectiveSlashFloor auditMode ∧
    let t := auditVerdictTally (genesis auditMode 0 0) ticket []
    ¬ (auditSlashDecision auditMode t.cheated t.voters t.invalidVotes t.seats = true ∧
      auditVindicateDecision auditMode t.valid t.voters (t.voters - t.invalidVotes : Int) t.seats =
        true)) ↔ auditMode.auditMinQuorum.toNat < 2 ^ 63 :=
  jury_bar_iff validate_auditMode rfl 15 (genesis auditMode 0 0) ticket []

/-- A quorum of 2 ^ 63 is accepted, and two verdicts of three seats clear the bar. -/
theorem jury_bar_negative : signedMode.validate = .ok () ∧ signedMode.verificationMode = 1 ∧
    signedMode.washSubsidyNegativeEV signedMode.workGateBps = true ∧
    auditRelativeBar signedMode 3 = 2 ∧ effectiveSlashFloor signedMode = -2 ^ 63 :=
  ⟨validate_signedMode, rfl, by decide, by decide, rfl⟩

end Dendra.Jobs
