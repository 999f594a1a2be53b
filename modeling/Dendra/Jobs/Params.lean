import Dendra.Jobs.Types
import Dendra.Jobs.Chain

/-!
# Module parameters

`types/params.go` (`DefaultParams`, `Validate`, `WashSubsidyNegativeEV`) and the policy helpers of
`keeper/policy_params.go`, `miner_vitality.go` and `judge.go`, where a parameter of zero selects a
compiled default.

`Validate` bounds the sum of the validator and team shares in `uint64`, where it can wrap;
`Params.Bounded` is the condition on the shares that the arithmetic of a settlement relies on.
-/

namespace Dendra.Jobs

open Word

/-! ## Compiled constants -/

/-- The size of the work committee. -/
def CommitteeSize : Int := 3

/-- The assignment ceiling, in multiples of `min_stake`. -/
def assignmentStakeCapMultiple : UInt64 := 2

/-- Job expiry, in blocks after opening. -/
def jobExpiryBlocks : Int := 100000

/-- A refused or undecided expiry is tried again this much later. -/
def jobExpiryRetryBlocks : Int := 1000

def jobExpiryMaxPerBlock : Nat := 200

def revealMaxPerBlock : Nat := 200

def auditMaxPerBlock : Nat := 200

/-- A deferred audit or reveal is tried again this much later. -/
def auditDeferStride : Int := 20

/-- The seats of an audit jury. -/
def auditCommitteeDrawSize : Int := 15

/-- The least number of fresh answers an adjudication needs. -/
def redoQuorumFloor : Int := 3

def AuditLegacyFloorBasis : Int := 5

def AuditFallbackFloor : UInt64 := 4

def jurorFreshnessBlocks : UInt64 := 259200

def minerPruneBlocks : UInt64 := 604800

def judgeMissedDrawsMax : UInt64 := 3

def MinVrfContributorPowerBps : UInt64 := 6667

def VrfContributorPowerFloorBps : UInt64 := 6667

/-- Answers count as equal from this cosine on, in basis points. -/
def semanticThresholdBps : Int := 7000

def embedMaxDim : Nat := 384

def embedMaxMag : Int := 1048576

namespace Params

variable (p : Params)

/-! ## Effective values -/

def effectiveJobExpiry : Int :=
  if p.jobExpiryBlocks > 0 then toInt64 p.jobExpiryBlocks else Jobs.jobExpiryBlocks

def effectiveWorkCommitteeSize : Int :=
  if p.workCommitteeSize > 0 then toInt64 p.workCommitteeSize else CommitteeSize

def effectiveStakeCapMultiple : UInt64 :=
  if p.assignmentStakeCapMultiple > 0 then p.assignmentStakeCapMultiple
  else Jobs.assignmentStakeCapMultiple

def effectiveAuditDrawSize : Int :=
  if p.auditCommitteeDrawSize > 0 then toInt64 p.auditCommitteeDrawSize
  else Jobs.auditCommitteeDrawSize

def effectiveMinVrfContributorPowerBps : UInt64 :=
  if p.committeeMinVrfPowerBps > 0 then p.committeeMinVrfPowerBps else MinVrfContributorPowerBps

def effectiveJurorFreshness : UInt64 :=
  if p.jurorFreshnessBlocks > 0 then p.jurorFreshnessBlocks else Jobs.jurorFreshnessBlocks

def effectivePruneWindow : UInt64 :=
  if p.minerPruneBlocks > 0 then p.minerPruneBlocks else Jobs.minerPruneBlocks

def effectiveJudgeVerdictWindow : UInt64 :=
  if p.judgeVerdictWindowBlocks > 0 then p.judgeVerdictWindowBlocks else p.effectiveJurorFreshness

def effectiveJudgeMissedDrawsMax : UInt64 :=
  if p.judgeMissedDrawsMax > 0 then p.judgeMissedDrawsMax else Jobs.judgeMissedDrawsMax

/-- The jury floor that `Validate` compares a draw size with. -/
def effectiveAuditFloor : UInt64 :=
  if p.auditMinQuorum > 0 then p.auditMinQuorum else AuditFallbackFloor

end Params

/-- The compiled jury floor. -/
def auditSlashFloor : Int := (AuditLegacyFloorBasis + 1) / 2 + 1

/-- The least number of verdicts an audit needs, as a signed integer. -/
def effectiveSlashFloor (p : Params) : Int :=
  if p.auditMinQuorum > 0 then toInt64 p.auditMinQuorum else auditSlashFloor

/-- The least number of verdicts on one side: the floor, and two thirds of the seats. -/
def auditRelativeBar (p : Params) (seats : Int) : Int :=
  let need := if p.auditMinQuorum > 0 then toInt64 p.auditMinQuorum else auditSlashFloor
  let q := (2 * seats + 2) / 3
  if q > need then q else need

def auditSlashDecision (p : Params) (cheated : Bool) (voters invalidVotes seats : Int) : Bool :=
  decide (voters ≥ effectiveSlashFloor p) && decide (invalidVotes ≥ auditRelativeBar p seats) &&
    cheated

def auditVindicateDecision (p : Params) (valid : Bool) (voters validVotes seats : Int) : Bool :=
  decide (voters ≥ effectiveSlashFloor p) && decide (validVotes ≥ auditRelativeBar p seats) && valid

theorem auditRelativeBar_eq (p : Params) (seats : Int) :
    auditRelativeBar p seats = max (effectiveSlashFloor p) ((2 * seats + 2) / 3) := by
  unfold auditRelativeBar effectiveSlashFloor
  simp only
  split <;> omega

/-! ## Validation -/

/-- Refuse with `text` when `bad` holds. -/
def refuse (bad : Prop) [Decidable bad] (text : String) : Except String Unit :=
  if bad then .error text else .ok ()

@[simp] theorem refuse_ok {bad : Prop} [Decidable bad] {text : String} {u : Unit} :
    refuse bad text = .ok u ↔ ¬ bad := by
  unfold refuse
  split <;> simp_all

theorem bind_unit_ok {x y : Except String Unit} :
    (x >>= fun _ => y) = .ok () ↔ x = .ok () ∧ y = .ok () := by
  cases x <;> simp [bind, Except.bind]

namespace Params

variable (p : Params)

/-- The checks of audit mode (`verification_mode = 1`). -/
def validateMode1 : Except String Unit := do
  refuse (p.auditSampleBps = 0)
    "verification_mode=1 requires audit_sample_bps > 0 (otherwise no audit is ever drawn)"
  refuse (p.disputeWindow = 0) "verification_mode=1 requires dispute_window > 0"
  refuse (p.slashLeakBps < 2500)
    "verification_mode=1 requires slash_leak_bps >= 2500 (deterrence must never be symbolic; shipped value 8000)"
  refuse (p.auditSampleBps < 500)
    "verification_mode=1 requires audit_sample_bps >= 500 (below a 5% audit rate, cheating is +EV again even at full slash)"
  refuse (p.auditMinQuorum > 0 ∧ p.auditMinQuorum < AuditFallbackFloor)
    "verification_mode=1 requires audit_min_quorum >= 4 when it is governed (below this floor an isolated juror vindicates a cheater; 0 selects the fallback floor)"
  refuse (p.disputeWindow > 0 ∧ p.disputeBond = 0)
    "verification_mode=1 requires dispute_bond > 0 (disputes are active: without a bond, disputing is free and the anti-grief forfeiture forfeits nothing; suggested anchor: min_stake)"
  refuse (p.committeeRevealDelay = 0)
    "verification_mode=1 requires committee_reveal_delay>0 (deferred reveal): with a zero delay the committee seed is fixed inside the opening block, which the proposer composes: it reads the pending job, builds the seed and knows the committee before proposing. committee_seed_source=1 does not substitute: it stops a single actor from picking the seed, and does nothing against a proposer who sees it in time to act"

/-- The checks that only audit mode makes. -/
def validateMode : Except String Unit :=
  if p.verificationMode = 1 then p.validateMode1 else .ok ()

/-- The address, the expiry, and the committee sizes. -/
def validateEpoch14 [Chain] : Except String Unit := do
  refuse (p.teamAddress ≠ [] ∧ ¬ ∃ bz ∈ Chain.decodeBech32 p.teamAddress,
      bz.length = 20 ∨ bz.length = 32)
    s!"team_address {String.ofList p.teamAddress} is not a valid account address (bech32, 20 or 32 bytes): the team share would have nowhere to go"
  refuse (p.jobExpiryBlocks > 0 ∧ (p.jobExpiryBlocks < 100 ∨ p.jobExpiryBlocks > 10000000))
    s!"job_expiry_blocks {p.jobExpiryBlocks} out of [100, 10000000] (0 selects the compiled default)"
  refuse (p.jobExpiryBlocks > 0 ∧ p.jobExpiryBlocks ≤ p.committeeRevealDelay)
    s!"job_expiry_blocks ({p.jobExpiryBlocks}) <= committee_reveal_delay ({p.committeeRevealDelay}): a job would expire before its committee is revealed"
  refuse (p.workCommitteeSize > 15)
    s!"work_committee_size {p.workCommitteeSize} > 15 (0 selects the compiled default)"
  refuse (p.workCommitteeSize > 0 ∧ p.verificationMode = 0 ∧ p.workCommitteeSize < 3)
    s!"work_committee_size {p.workCommitteeSize} < 3 in redundant mode: a strict majority of fewer than three answers is one answer"
  refuse (p.assignmentStakeCapMultiple > 100)
    s!"assignment_stake_cap_multiple {p.assignmentStakeCapMultiple} > 100 (0 selects the compiled default of 2)"
  refuse (p.auditCommitteeDrawSize > 0 ∧
      (p.auditCommitteeDrawSize < p.effectiveAuditFloor ∨ p.auditCommitteeDrawSize > 64))
    s!"audit_committee_draw_size {p.auditCommitteeDrawSize} out of [{p.effectiveAuditFloor}, 64]: below the effective jury floor no audit can ever conclude (0 selects the compiled default)"

/-- The judge window, the availability sample and the power bar of the seed. -/
def validateEpoch15 : Except String Unit := do
  refuse (p.judgeVerdictWindowBlocks > 0 ∧ p.jurorFreshnessBlocks > 0 ∧
      p.judgeVerdictWindowBlocks < p.jurorFreshnessBlocks)
    s!"judge_verdict_window_blocks ({p.judgeVerdictWindowBlocks}) < juror_freshness_blocks ({p.jurorFreshnessBlocks}): a judge would lose its seat by the window while vitality still summons it (0 selects the freshness window)"
  refuse (p.availSampleBps > 10000) "avail_sample_bps > 10000"
  refuse (p.committeeMinVrfPowerBps > 0 ∧ (p.committeeMinVrfPowerBps < VrfContributorPowerFloorBps ∨
      p.committeeMinVrfPowerBps > 10000))
    s!"committee_min_vrf_power_bps {p.committeeMinVrfPowerBps} out of [{VrfContributorPowerFloorBps}, 10000]: the power bar of the decentralised seed may be raised above two thirds, never lowered below it (0 selects the compiled bar)"
  refuse (p.committeeMinVrfPowerBps > 0 ∧ p.committeeSeedSource ≠ 1)
    "committee_min_vrf_power_bps > 0 requires committee_seed_source=1 (without a decentralised VRF seed this bar is never evaluated)"

/-- `Params.Validate`. -/
def validate [Chain] : Except String Unit := do
  refuse (p.protocolFeeBps > 10000) "protocol_fee_bps > 10000"
  refuse (p.validatorRewardBps + p.teamFeeBps > 10000) "validator+team > 100% of the cut"
  refuse (p.minerVestBps > 10000) "miner_vest_bps > 10000"
  refuse (p.availPayoutBps > 10000) "avail_payout_bps > 10000"
  refuse (p.slashLeakBps > 10000)
    "slash_leak_bps > 10000: a slash cannot exceed the bond it takes from (uint64 underflow: the punished miner would end up with the largest stake on the chain)"
  refuse (p.feeBurnBps > 10000)
    "fee_burn_bps > 10000: a burn cannot exceed the fee it is taken from (uint64 underflow on the distributable remainder)"
  refuse (p.minerPruneBlocks > 0 ∧ p.jurorFreshnessBlocks > 0 ∧
      p.minerPruneBlocks < p.jurorFreshnessBlocks)
    s!"miner_prune_blocks ({p.minerPruneBlocks}) < juror_freshness_blocks ({p.jurorFreshnessBlocks}): this evicts from the registry a miner still summonable as a juror"
  refuse (p.auditUnwindBlocks > 0 ∧ p.auditResolveTimeout > 0 ∧
      p.auditUnwindBlocks < p.auditResolveTimeout)
    s!"audit_unwind_blocks ({p.auditUnwindBlocks}) < audit_resolve_timeout ({p.auditResolveTimeout}): the retention would be unwound before the audit it waits for has been retried even once"
  refuse (p.minerPruneBlocks > 0 ∧ p.disputeWindow > 0 ∧ p.minerPruneBlocks < p.disputeWindow)
    s!"miner_prune_blocks ({p.minerPruneBlocks}) < dispute_window ({p.disputeWindow}): this evicts from the registry the only jurors the pool freeze still allows to judge this job"
  refuse (p.committeeSeedSource > 1)
    "committee_seed_source must be 0 (fallback) or 1 (decentralised vrf)"
  refuse (p.vrfBeaconPubkey ≠ [] ∧ Str.isHexOf 32 p.vrfBeaconPubkey = false)
    "invalid vrf_beacon_pubkey (expected 32 hex-encoded bytes)"
  refuse (p.verificationMode > 1) "verification_mode must be 0 (redundant) or 1 (optimistic)"
  refuse (p.auditSampleBps > 10000) "audit_sample_bps > 10000"
  p.validateMode
  refuse (p.disputeWindow > 0 ∧ p.auditResolveTimeout ≤ p.disputeWindow)
    "dispute_window > 0 requires audit_resolve_timeout > dispute_window (a dispute that can be opened must have a deadline: without it a job with too few or silent jurors stays +disputed for ever; below the window the timeout would resolve before adjudication)"
  refuse (p.committeeMinVrfContributors > 0 ∧ p.committeeSeedSource ≠ 1)
    "committee_min_vrf_contributors > 0 requires committee_seed_source=1 (without a decentralised VRF seed this floor is never evaluated, so the guard would be advertised as active while doing nothing)"
  refuse (p.silenceSlashBps > 10000) "silence_slash_bps > 10000"
  refuse (p.appealWindow > 0 ∧ p.auditResolveTimeout = 0)
    "appeal_window > 0 requires audit_resolve_timeout > 0"
  refuse (p.holdBps > 10000) "hold_bps > 10000"
  refuse (p.availThresholdBps > 10000) "avail_threshold_bps > 10000"
  refuse (p.availSlashBps > 10000) "avail_slash_bps > 10000"
  refuse (p.availFailK > 0 ∧ p.availFailWindow < p.availFailK)
    "avail_fail_window must be >= avail_fail_k (otherwise the failure quorum is unreachable)"
  refuse (p.availSlashBps > 0 ∧ p.availEpochBlocks = 0)
    "avail_slash_bps > 0 requires avail_epoch_blocks > 0 (with no challenge epoch the slash is inert)"
  refuse (p.availSlashBps > 0 ∧ p.availDeadlineBlocks = 0)
    "avail_slash_bps > 0 requires avail_deadline_blocks > 0 (with no deadline a challenge never expires, so a failure is never recorded)"
  refuse (p.availSlashBps > 0 ∧ (p.availFailK = 0 ∨ p.availFailWindow = 0))
    "avail_slash_bps > 0 requires avail_fail_k > 0 and avail_fail_window > 0 (false-positive protection: an isolated failure must never slash)"
  refuse (p.availSlashBps > 0 ∧ p.availFailWindow > 64)
    "avail_fail_window > 64 (the sliding window is a 64-bit bitmask; reduce W or lengthen avail_epoch_blocks)"
  p.validateEpoch14
  p.validateEpoch15

/-- Self-dealing stays unprofitable at this work gate. -/
def washSubsidyNegativeEV (workGateBps : UInt64) : Bool :=
  let vr := if p.validatorRewardBps > 10000 then 10000 else p.validatorRewardBps
  let nonStaker := p.protocolFeeBps.toNat * (10000 - vr).toNat
  let lhs := workGateBps.toNat * nonStaker
  if lhs = 0 then true
  else decide (lhs < (nonStaker + p.feeBurnBps.toNat * 10000) * 10000)

/-- `DefaultParams`. -/
def default : Params where
  minStake := 1000
  protocolFeeBps := 1500
  validatorRewardBps := 5000
  teamFeeBps := 2000
  minerVestBps := 3000
  slashLeakBps := 8000
  workGateBps := 15000
  feeBurnBps := 500
  enforceModelRegistry := false
  committeeRevealDelay := 0
  availEpochBlocks := 0
  availPayoutBps := 0
  availRequireDemand := true
  vrfBeaconPubkey := []
  committeeSeedSource := 0
  disputeWindow := 0
  disputeBond := 0
  verificationMode := 0
  auditSampleBps := 0
  auditAdaptive := 0
  auditProbationJobs := 0
  auditResolveTimeout := 0
  silenceSlashBps := 0
  appealWindow := 0
  auditMinQuorum := 0
  holdBps := 0
  committeeMinVrfContributors := 0
  availThresholdBps := 0
  availDeadlineBlocks := 0
  availSlashBps := 0
  availSlashMax := 0
  availFailWindow := 0
  availFailK := 0
  jurorFreshnessBlocks := 0
  minerPruneBlocks := 0
  auditUnwindBlocks := 0
  teamAddress := []
  jobExpiryBlocks := 0
  workCommitteeSize := 0
  assignmentStakeCapMultiple := 0
  auditCommitteeDrawSize := 0
  minKitVersion := 0
  judgeVerdictWindowBlocks := 0
  judgeMissedDrawsMax := 0
  availSampleBps := 0
  committeeMinVrfPowerBps := 0

/-- The basis points that `Validate` bounds. -/
structure Checked : Prop where
  protocolFee : p.protocolFeeBps.toNat ≤ 10000
  feeBurn : p.feeBurnBps.toNat ≤ 10000
  hold : p.holdBps.toNat ≤ 10000
  slashLeak : p.slashLeakBps.toNat ≤ 10000
  silenceSlash : p.silenceSlashBps.toNat ≤ 10000
  availSlash : p.availSlashBps.toNat ≤ 10000

/-- The shares of a settlement and of a slash are parts of a whole. `Validate` adds the two shares of
the cut as machine words, so it promises `shares` only where that sum does not wrap. -/
structure Bounded : Prop extends p.Checked where
  shares : p.validatorRewardBps.toNat + p.teamFeeBps.toNat ≤ 10000

variable {p}

instance : Decidable p.Checked :=
  decidable_of_iff (p.protocolFeeBps.toNat ≤ 10000 ∧ p.feeBurnBps.toNat ≤ 10000 ∧
      p.holdBps.toNat ≤ 10000 ∧ p.slashLeakBps.toNat ≤ 10000 ∧ p.silenceSlashBps.toNat ≤ 10000 ∧
      p.availSlashBps.toNat ≤ 10000)
    ⟨fun ⟨h1, h2, h3, h4, h5, h6⟩ => ⟨h1, h2, h3, h4, h5, h6⟩,
      fun h => ⟨h.protocolFee, h.feeBurn, h.hold, h.slashLeak, h.silenceSlash, h.availSlash⟩⟩

instance : Decidable p.Bounded :=
  decidable_of_iff (p.Checked ∧ p.validatorRewardBps.toNat + p.teamFeeBps.toNat ≤ 10000)
    ⟨fun h => ⟨h.1, h.2⟩, fun h => ⟨h.toChecked, h.shares⟩⟩

theorem toNat_le_of_not_gt {x : UInt64} (h : ¬ x > 10000) : x.toNat ≤ 10000 := by
  simpa [UInt64.lt_iff_toNat_lt] using h

theorem Checked.of_validate [Chain] (h : p.validate = .ok ()) : p.Checked := by
  simp only [validate, bind_unit_ok, refuse_ok] at h
  obtain ⟨hcut, -, -, -, hslash, hburn, -, -, -, -, -, -, -, -, -, -, hsilence, -, hhold, -, havail,
    -⟩ := h
  exact ⟨toNat_le_of_not_gt hcut, toNat_le_of_not_gt hburn, toNat_le_of_not_gt hhold,
    toNat_le_of_not_gt hslash, toNat_le_of_not_gt hsilence, toNat_le_of_not_gt havail⟩

/-- Accepted parameters are bounded, but for the sum of the two shares of the cut. -/
theorem Bounded.of_validate [Chain] (h : p.validate = .ok ())
    (hs : p.validatorRewardBps.toNat + p.teamFeeBps.toNat ≤ 10000) : p.Bounded :=
  ⟨Checked.of_validate h, hs⟩

/-- In audit mode, a governed quorum is not below the compiled floor. -/
theorem auditMinQuorum_of_validate [Chain] (h : p.validate = .ok ()) (hm : p.verificationMode = 1)
    (hq : p.auditMinQuorum > 0) : 4 ≤ p.auditMinQuorum.toNat := by
  simp only [validate, bind_unit_ok, refuse_ok] at h
  obtain ⟨-, -, -, -, -, -, -, -, -, -, -, -, -, hmode, -⟩ := h
  simp only [validateMode, hm, if_true, validateMode1, bind_unit_ok, refuse_ok] at hmode
  obtain ⟨-, -, -, -, hmin, -⟩ := hmode
  rw [not_and] at hmin
  simpa [UInt64.lt_iff_toNat_lt, AuditFallbackFloor] using hmin hq

/-- Audit mode audits: the sample rate is positive. -/
theorem auditSampleBps_of_validate [Chain] (h : p.validate = .ok ())
    (hm : p.verificationMode = 1) : 500 ≤ p.auditSampleBps.toNat := by
  simp only [validate, bind_unit_ok, refuse_ok] at h
  obtain ⟨-, -, -, -, -, -, -, -, -, -, -, -, -, hmode, -⟩ := h
  simp only [validateMode, hm, if_true, validateMode1, bind_unit_ok, refuse_ok] at hmode
  obtain ⟨-, -, -, hmin, -⟩ := hmode
  simpa [UInt64.lt_iff_toNat_lt] using hmin

/-- A work committee has seats. -/
theorem effectiveWorkCommitteeSize_pos [Chain] (h : p.validate = .ok ()) :
    0 < p.effectiveWorkCommitteeSize := by
  simp only [validate, bind_unit_ok, refuse_ok] at h
  obtain ⟨-, -, -, -, -, -, -, -, -, -, -, -, -, -, -, -, -, -, -, -, -, -, -, -, -, -, h14, -⟩ := h
  simp only [validateEpoch14, bind_unit_ok, refuse_ok] at h14
  obtain ⟨-, -, -, hsize, -⟩ := h14
  unfold effectiveWorkCommitteeSize
  split
  · next hpos =>
    simp only [gt_iff_lt, UInt64.lt_iff_toNat_lt] at hpos hsize
    rw [toInt64_of_lt (by simp at hsize; omega)]
    simpa using hpos
  · decide

/-- The shipped parameters are accepted, and keep self-dealing unprofitable. -/
theorem validate_default [Chain] :
    Params.default.validate = .ok () ∧
      Params.default.washSubsidyNegativeEV Params.default.workGateBps = true := by
  refine ⟨?_, by decide⟩
  simp only [validate, validateMode, validateEpoch14, validateEpoch15, bind_unit_ok, refuse_ok]
  simp [Params.default]

end Params

end Dendra.Jobs
